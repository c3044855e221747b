import PartitionLog.Session.Buffer

/-!
# Log steps

The steps on an indexed log, an appender, failure listeners and a log stream. Making a log stream,
or dropping it, clears away all components that were made before, the storage apart.
-/

namespace PartitionLog.Session

inductive IndexedStep where
  | create (threshold window : Nat) (snapshot : Option String)
  | openUp (commit : Int)
  | written (position : Int) (address length : Nat)
  | truncate (position : Int) (address : Nat)
  | close
  | sameIndex

inductive AppenderStep where
  | create (maxBlock : Nat) (position : Int) (sync : SyncStrategy)
  | openUp
  | close
  | setNext (position : Int)

inductive ListenerStep where
  | register (id : String) (observer : Observer)
  | remove (id : String)
  | count

/-- A lifecycle step waits for its outcome, or keeps a handle for it under a name. -/
inductive StreamStep where
  | create (config : LogConfig)
  | drop
  | command (command : Command) (handle : Option String)
  | join (handle : String)
  | isDone (handle : String)
  | tryWrite (data : Bytes)
  | batch (data : List Bytes)
  | setCommit (position : Int)
  | setTerm (term : Nat)
  | readAll
  | info

namespace Workspace

/-! ## Indexed logs and appenders -/

def onIndexedLog {α : Type} (w : Workspace) (x : Attempt IndexedLog α) (f : α → Answer) :
    Answer × Workspace :=
  match w.indexedLog? with
  | none => (.refused, w)
  | some log =>
    let (outcome, log) := x.run log
    (.ofExcept f outcome, w.setIndexedLog log)

def indexedStep (w : Workspace) : IndexedStep → Answer × Workspace
  | .create threshold window snapshot =>
    let sampling : Sampling := ⟨max 1 threshold, window, snapshot, false, none⟩
    (.done, { w with kept := w.kept ++ [⟨w.storageNumber, sampling⟩] })
  | .openUp commit => w.onIndexedLog (IndexedLog.recover commit) .recovered
  | .written position address length =>
    w.onIndexedLog (IndexedLog.noteBlock position address length) fun _ => .done
  | .truncate position address =>
    w.onIndexedLog (.modify (IndexedLog.forget position address)) fun _ => .done
  | .close => w.onIndexedLog IndexedLog.persist fun _ => .done
  | .sameIndex => (.flag true, w)

def onAppender (w : Workspace) (x : Attempt Appender Unit) : Answer × Workspace :=
  match w.appender? with
  | none => (.refused, w)
  | some a =>
    let (outcome, a) := x.run a
    (.ofOutcome outcome, w.setAppender a)

/-- Stop the appender; what it still does is done. -/
def stopAppender (w : Workspace) : Workspace :=
  match w.appender? with
  | none => w
  | some a => (w.setAppender a.stop).collectAppender

def appenderStep (w : Workspace) : AppenderStep → Answer × Workspace
  | .create maxBlock position sync =>
    match w.indexedLog?, w.buffers.getLast? with
    | some log, some buffer =>
      let w := w.stopAppender
      let appender : Appender := {
        log := log, buffer := buffer, maxBlock := maxBlock, sync := sync, nextPosition := position }
      (.done, { w with
        ownAppender := some ⟨appender, w.storageNumber, w.kept.length - 1, w.bufferNumber⟩
        wasAppending := true })
    | _, _ => (.refused, w)
  | .openUp => w.onAppender Appender.start
  | .close => w.onAppender (.modify Appender.stop)
  | .setNext position => w.onAppender (Appender.moveTo position)

/-! ## Listeners -/

/-- The listeners of the stream, if there is one. -/
def changeListeners (w : Workspace) (f : Listeners → Listeners) : Workspace :=
  match w.lifecycle? with
  | some l => w.setLifecycle (Partition.onListeners l f)
  | none => { w with listeners := f w.listeners }

/-- What a listener does is settled when its name is first used; it can only remove a listener that
was registered before, and one that reports to the health monitor does nothing else. -/
def observe (w : Workspace) (id : String) (observer : Observer) : Observer :=
  (w.observers.find? id).getD { observer with
    removes := observer.removes.filter fun other =>
      observer.component.isNone && (w.observers.find? other).isSome }

def listenerStep (w : Workspace) : ListenerStep → Answer × Workspace
  | .register id observer =>
    let known := w.observe id observer
    (.done,
      { w with observers := w.observers.put id known }.changeListeners
        (·.register ⟨.observer id, known.component⟩))
  | .remove id => (.done, w.changeListeners (·.remove (.observer id)))
  | .count =>
    (.counted w.listeners.size (w.listeners.size == 0 && !w.wasAppending), w)

/-! ## Log streams -/

/-- Take the stream and all single components out of the workspace; what they still do is done. -/
def clear (w : Workspace) : Workspace :=
  let w := w.dropClaims.stopAppender
  let w := match w.lifecycle?, w.stream with
    | some l, some s =>
      let stream := l.retire
      (w.setStorageAt s.storage stream.storage).passOn stream.appender.listeners.delivered
    | _, _ => w
  { w with
    index := .empty
    kept := []
    buffers := []
    ownAppender := none
    stream := none
    readers := []
    streamHandles := []
    partition := none
    isAttached := false
    partitionHandles := [] }.setStorage { w.storage with isGated := false }

def createStream (w : Workspace) (config : LogConfig) : Answer × Workspace :=
  match LogStream.create config w.storage with
  | .error e => (.failed e, w)
  | .ok _ =>
    let w := w.clear
    match LogStream.create config w.storage with
    | .error e => (.failed e, w)
    | .ok stream => (.done, { w with stream := some ⟨{ stream := stream }, w.storageNumber⟩ })

/-- Ask for a lifecycle command; the answer is the ticket. -/
def requestCommand (w : Workspace) (command : Command) : Option Nat × Workspace :=
  w.useStream none fun l =>
    let (ticket, l) := l.request command
    (some ticket, l)

def ticket (w : Workspace) (n : Nat) : Completion Unit :=
  (w.stream.map (·.lifecycle.ticket n)).getD .pending

def commandStep (w : Workspace) (command : Command) (handle : Option String) : Answer × Workspace :=
  match w.requestCommand command, handle with
  | (none, w), _ => (.refused, w)
  | (some ticket, w), some name =>
    (.label "started", { w with streamHandles := w.streamHandles.put name ticket }.settlePatiently)
  | (some ticket, w), none =>
    let w := w.settle
    (.ofCompletion (w.ticket ticket), w)

def tryWrite (w : Workspace) (data : Bytes) : Answer × Workspace :=
  w.useStream .refused fun l =>
    let (outcome, stream) := (LogStream.tryWrite data).run l.stream
    (.ofOutcome outcome, { l with stream := stream })

/-- Claim for all records, then commit the claims, the last one first. -/
def batch (data : List Bytes) (buffer : WriteBuffer) :
    List (Except LogError (Nat × Nat)) × WriteBuffer :=
  match data with
  | [] => ([], buffer)
  | payload :: rest =>
    match (WriteBuffer.tryClaim payload.length).run buffer with
    | (.error e, buffer) =>
      let (items, buffer) := batch rest buffer
      (.error e :: items, buffer)
    | (.ok claim, buffer) =>
      let (items, buffer) := batch rest buffer
      (.ok (claim.slot, buffer.physical claim.offset) :: items,
        buffer.commit { claim with payload := payload })

def batchStep (w : Workspace) (data : List Bytes) : Answer × Workspace :=
  w.useStream .refused fun l =>
    let (items, buffer) := batch data l.stream.buffer
    (.batch items, l.onStream (·.withBuffer fun _ => buffer))

/-- All records of the stream, by a reader of its own. -/
def readAll (l : Lifecycle) : Answer × Lifecycle :=
  let (answer, rs) := collectAll (l.stream.reading l.stream.newReader)
  (.read answer rs.reader.next, l.onStream (·.withStorage rs.storage))

def streamStep (w : Workspace) : StreamStep → Answer × Workspace
  | .create config => w.createStream config
  | .drop => (.done, w.clear)
  | .command command handle => w.commandStep command handle
  | .join name =>
    match w.streamHandles.find? name with
    | none => (.refused, w)
    | some ticket =>
      let w := w.settle
      (.ofCompletion (w.ticket ticket), w)
  | .isDone name =>
    match w.streamHandles.find? name with
    | none => (.refused, w)
    | some ticket => (.progressOf (w.ticket ticket), w)
  | .tryWrite data => w.tryWrite data
  | .batch data => w.batchStep data
  | .setCommit position =>
    w.useStream .refused fun l => (.done, l.onStream (·.raiseCommit position))
  | .setTerm term => w.useStream .refused fun l => (.done, l.onStream fun s => { s with term := term })
  | .readAll => w.useStream .refused readAll
  | .info => w.useStream .refused fun l => (.streamInfo l.stream, l)

end Workspace

end PartitionLog.Session
