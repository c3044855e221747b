import PartitionLog.Partition.Transition

/-!
# The workspace of a session

A session works on one workspace: files, storages, an index, and over them, as far as they were
made, indexed logs, write buffers, an appender, a log stream and a partition. What was made over a
storage keeps it when steps go on with a new one, so components refer to each other by number and
are put together when they are used (`Workspace.appender?`, `Workspace.lifecycle?`). Claims, readers
and handles are kept under names. After every step the workspace settles: queued commands are
carried out and appenders drain what they can.
-/

namespace PartitionLog.Session

/-! ## Things kept under names -/

/-- Values under names; putting one replaces the one of that name. -/
abbrev Named (α : Type) := List (String × α)

namespace Named

variable {α : Type}

def find? (named : Named α) (name : String) : Option α := List.lookup name named

def drop (named : Named α) (name : String) : Named α := named.filter (·.1 != name)

def put (named : Named α) (name : String) (value : α) : Named α :=
  (name, value) :: named.drop name

end Named

/-! ## What the steps work on -/

/-- How the index is kept along with the storage of this number. -/
structure KeptIndex where
  storage : Nat
  sampling : Sampling
  deriving DecidableEq, Repr

/-- An appender, and the numbers of the storage, kept index and buffer that it works on. -/
structure OwnAppender where
  appender : Appender
  storage : Nat
  kept : Nat
  buffer : Nat

/-- A log stream, and the number of its storage. -/
structure OwnStream where
  lifecycle : Lifecycle
  storage : Nat

/-- A reader, and the number of the storage that it reads. -/
structure OwnReader where
  reader : Reader
  storage : Nat
  deriving DecidableEq, Repr

/-- What a listener that was registered under a name does. -/
structure Observer where
  /-- Reports to the health monitor for this component, and notes nothing. -/
  component : Option String := none
  failureOnly : Bool := false
  /-- A listener that a failure makes it remove. -/
  removes : Option String := none
  deriving DecidableEq, Repr

/-- How the processors built from now on behave. -/
structure FactorySwitches where
  failBuild : Bool := false
  failOpen : Bool := false
  failClose : Bool := false
  holdOpen : Bool := false
  deriving DecidableEq, Repr

def FactorySwitches.plan (switches : FactorySwitches) (_ : Nat) : Option ProcessorTraits :=
  if switches.failBuild then none
  else some ⟨switches.failOpen, switches.failClose, switches.holdOpen⟩

structure Workspace where
  files : FileSystem := {}
  /-- Storages in the order in which they were made; steps work on the last one. -/
  storages : List Storage := [.newMemory]
  /-- The index that single components share. -/
  index : BlockIndex := .empty
  /-- Kept indexes in the order in which they were made; steps work on the last one. -/
  kept : List KeptIndex := []
  /-- Write buffers in the order in which they were made; steps work on the last one, unless there
  is a stream. -/
  buffers : List WriteBuffer := []
  ownAppender : Option OwnAppender := none
  stream : Option OwnStream := none
  /-- The listeners that an appender of single components uses. -/
  listeners : Listeners := {}
  /-- Whether there was an appender of single components, which is listened to. -/
  wasAppending : Bool := false
  observers : Named Observer := []
  health : HealthMonitor := {}
  /-- Claims, and the number of the buffer in which they were made, if there is no stream. -/
  claims : Named (Claim × Nat) := []
  readers : Named OwnReader := []
  streamHandles : Named Nat := []
  completions : List (Completion Int) := []
  completionNames : Named Nat := []
  partition : Option Partition := none
  /-- Whether the partition has the stream of the workspace. -/
  isAttached : Bool := false
  partitionHandles : Named Nat := []
  factory : Factory := {}
  switches : FactorySwitches := {}
  failingSteps : List (String × Phase) := []
  nextListener : Nat := 0
  /-- What happened and was not shown yet. -/
  events : List PartitionEvent := []

namespace Workspace

/-! ## Storages -/

/-- The number of the storage that steps work on. -/
def storageNumber (w : Workspace) : Nat := w.storages.length - 1

/-- A storage, over the files as they are now. -/
def storageAt (w : Workspace) (number : Nat) : Storage :=
  { w.storages.getD number .newMemory with files := w.files }

def setStorageAt (w : Workspace) (number : Nat) (storage : Storage) : Workspace :=
  { w with storages := w.storages.set number storage, files := storage.files }

def storage (w : Workspace) : Storage := w.storageAt w.storageNumber

def setStorage (w : Workspace) (storage : Storage) : Workspace :=
  w.setStorageAt w.storageNumber storage

/-- Let steps go on with a new storage. -/
def addStorage (w : Workspace) (storage : Storage) : Workspace :=
  { w with storages := w.storages ++ [storage], files := storage.files }

/-! ## The log stream -/

def lifecycle? (w : Workspace) : Option Lifecycle :=
  w.stream.map fun s => s.lifecycle.onStream (·.withStorage (w.storageAt s.storage))

def setLifecycle (w : Workspace) (l : Lifecycle) : Workspace :=
  match w.stream with
  | none => w
  | some s =>
    { w with stream := some { s with lifecycle := l } }.setStorageAt s.storage l.stream.storage

/-- Use the stream; `other` is the answer if there is none. -/
def useStream {α : Type} (w : Workspace) (other : α) (f : Lifecycle → α × Lifecycle) :
    α × Workspace :=
  match w.lifecycle? with
  | none => (other, w)
  | some l =>
    let (answer, l) := f l
    (answer, w.setLifecycle l)

/-! ## Single components -/

/-- The index that index steps work on. -/
def currentIndex (w : Workspace) : BlockIndex :=
  match w.stream with
  | some s => s.lifecycle.stream.index
  | none => w.index

def setCurrentIndex (w : Workspace) (index : BlockIndex) : Workspace :=
  match w.stream with
  | some s =>
    { w with stream := some { s with lifecycle := s.lifecycle.onStream (·.withIndex index) } }
  | none => { w with index := index }

/-- The number of the buffer that buffer steps work on, if there is no stream. -/
def bufferNumber (w : Workspace) : Nat := w.buffers.length - 1

/-- The buffer that buffer steps work on. -/
def buffer? (w : Workspace) : Option WriteBuffer :=
  match w.stream with
  | some s => some s.lifecycle.stream.buffer
  | none => w.buffers.getLast?

/-- Put back a buffer: the one of the stream, or else the one of this number. -/
def setBufferAt (w : Workspace) (number : Nat) (buffer : WriteBuffer) : Workspace :=
  match w.stream with
  | some s =>
    { w with
      stream := some { s with lifecycle := s.lifecycle.onStream (·.withBuffer fun _ => buffer) } }
  | none => { w with buffers := w.buffers.set number buffer }

def setBuffer (w : Workspace) (buffer : WriteBuffer) : Workspace :=
  w.setBufferAt w.bufferNumber buffer

/-- The buffer in which a claim was made. -/
def bufferAt? (w : Workspace) (number : Nat) : Option WriteBuffer :=
  match w.stream with
  | some s => some s.lifecycle.stream.buffer
  | none => w.buffers[number]?

def indexedLog? (w : Workspace) : Option IndexedLog :=
  w.kept.getLast?.map fun k => ⟨w.storageAt k.storage, w.index, k.sampling⟩

def setIndexedLog (w : Workspace) (log : IndexedLog) : Workspace :=
  match w.kept.getLast? with
  | none => w
  | some k =>
    { w with
      index := log.index
      kept := w.kept.set (w.kept.length - 1) { k with sampling := log.sampling }
    }.setStorageAt k.storage log.storage

def appender? (w : Workspace) : Option Appender := do
  let own ← w.ownAppender
  let k ← w.kept[own.kept]?
  let buffer ← w.buffers[own.buffer]?
  return { own.appender with
    log := ⟨w.storageAt own.storage, w.index, k.sampling⟩
    buffer := buffer
    listeners := w.listeners }

def setAppender (w : Workspace) (a : Appender) : Workspace :=
  match w.ownAppender with
  | none => w
  | some own =>
    { w with
      ownAppender := some { own with appender := a }
      index := a.log.index
      kept := w.kept.modify own.kept fun k => { k with sampling := a.log.sampling }
      buffers := w.buffers.set own.buffer a.buffer
      listeners := a.listeners }.setStorageAt own.storage a.log.storage

/-! ## The partition -/

/-- The partition, with what it shares with the workspace. -/
def partition? (w : Workspace) : Option Partition :=
  w.partition.map fun p => { p with
    stream := if w.isAttached then w.lifecycle? else none
    health := w.health
    factory := { w.factory with plan := w.switches.plan }
    nextListener := w.nextListener
    events := [] }

/-! ## Settling -/

/-- Whether a named listener notes this. -/
def notes (observer : Observer) (notice : Notice) : Bool :=
  observer.component.isNone && (!observer.failureOnly || notice != .recovered)

/-- A named listener was told something. -/
def hear (w : Workspace) (d : Delivery) : Workspace :=
  match d.listener.key with
  | .partition _ => w
  | .observer name =>
    let observer := (w.observers.find? name).getD {}
    let w := if notes observer d.notice then { w with events := w.events ++ [.told d] } else w
    match d.notice, observer.removes with
    | .failure _, some other => { w with listeners := w.listeners.remove (.observer other) }
    | _, _ => w

/-- Something happened in the partition. -/
def witness (w : Workspace) : PartitionEvent → Workspace
  | .told d => w.hear d
  | event => { w with events := w.events ++ [event] }

/-- Listeners were told something outside of a role change. -/
def passOn (w : Workspace) (deliveries : List Delivery) : Workspace :=
  deliveries.foldl hear { w with health := deliveries.foldl HealthMonitor.absorb w.health }

/-- Put back the partition, and look at what happened in it. -/
def setPartition (w : Workspace) (p : Partition) : Workspace :=
  let w := match p.stream with
    | some l => w.setLifecycle l
    | none => w
  p.events.foldl witness { w with
    health := p.health
    factory := p.factory
    nextListener := p.nextListener
    partition := some { p with stream := none, events := [] } }

/-- Go on with a change of role that waits for the stream. -/
def resumeChange (w : Workspace) : Workspace :=
  match w.partition? with
  | none => w
  | some p => w.setPartition p.resume

/-- Pass on what the listeners of the stream were told. -/
def collectStream (w : Workspace) : Workspace :=
  match w.lifecycle? with
  | none => w
  | some l =>
    let l' := l.onStream fun s => s.withAppender fun a =>
      { a with listeners := a.listeners.collected }
    (w.setLifecycle l').passOn l.stream.appender.listeners.delivered

/-- Pass on what the listeners of the appender were told. -/
def collectAppender (w : Workspace) : Workspace :=
  { w with listeners := w.listeners.collected }.passOn w.listeners.delivered

/-- Carry out what is queued for the stream and let its appender drain. -/
def settleStream (patient : Bool) (w : Workspace) : Workspace :=
  match w.lifecycle? with
  | none => w
  | some l =>
    let w := (w.setLifecycle (l.settle patient)).collectStream.resumeChange
    match w.lifecycle? with
    | none => w
    | some l => (w.setLifecycle (l.settle patient)).collectStream

/-- Let the appender drain. -/
def wakeAppender (w : Workspace) : Workspace :=
  match w.appender? with
  | none => w
  | some a => (w.setAppender a.wake).collectAppender

/-- Let the appender drain, if it is waited for. An appender over an earlier buffer is not: it
drains before the next step. -/
def settleAppender (w : Workspace) : Workspace :=
  if w.ownAppender.any (·.buffer == w.bufferNumber) then w.wakeAppender else w

/-- Carry out what is queued and drain what can be drained. -/
def settle (w : Workspace) : Workspace := (w.settleStream false).settleAppender

/-- Settling after a step whose outcome is not waited for: a closing stream still waits for its
claims, if its storage is not gated. -/
def settlePatiently (w : Workspace) : Workspace :=
  (w.settleStream !w.storage.isGated).settleAppender

end Workspace

/-! ## Answers -/

/-- What a step answers. -/
inductive Answer where
  | done
  | failed (error : LogError)
  /-- The step names something that is not there. -/
  | refused
  | null
  | label (text : String)
  | number (value : Int)
  | flag (value : Bool)
  | bytes (value : Bytes)
  | names (values : List String)
  | looked (entry : Option IndexEntry) (start : Nat)
  | indexInfo (size : Nat) (last : Option IndexEntry)
  | snapshot (index : BlockIndex) (same : Bool)
  | capacities (capacity maxFragment : Nat)
  | claimed (slot offset length : Nat)
  | placed (slot offset : Nat)
  | batch (items : List (Except LogError (Nat × Nat)))
  | block (block : DrainBlock)
  | made (next : Nat)
  | read (value : Answer) (next : Nat)
  | record (record : Record)
  | collected (records : List Record) (stop : Option LogError)
  | recovered (found : Recovered)
  | counted (size : Nat) (isEmpty : Bool)
  | progress (isDone isFailed : Bool) (description : String)
  | streamInfo (stream : LogStream)
  | status (health : Health)
  | partitionInfo (partition : Partition)
  | besides (answer : Answer) (finished : Bool)

namespace Answer

def ofOutcome : Except LogError Unit → Answer
  | .ok () => done
  | .error e => failed e

def ofExcept {α : Type} (f : α → Answer) : Except LogError α → Answer
  | .ok a => f a
  | .error e => failed e

def ofOption {α : Type} (f : α → Answer) : Option α → Answer
  | some a => f a
  | none => null

def ofCompletion (c : Completion Unit) : Answer :=
  match c.outcome with
  | none => label "pending"
  | some outcome => ofOutcome outcome

def progressOf {α : Type} (c : Completion α) : Answer :=
  progress c.isDone c.isFailed c.description

end Answer

end PartitionLog.Session
