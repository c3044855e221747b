import PartitionLog.Health
import PartitionLog.Stream.Lifecycle

/-!
# Partitions

The components of one partition and the steps that a change of role takes through them. A step has
two phases: `prepare` tears down what the new role does not keep, `install` sets up what it needs.
The log stream step keeps the stream open in active roles and reports its failures to the health
monitor; the processor step holds at most one processor, built for the role; a recorder only notes
its calls, and may fail. Everything that happens is added to `events`.
-/

namespace PartitionLog

inductive Phase where
  | prepare
  | install
  deriving DecidableEq, Repr

def Phase.text : Phase → String
  | .prepare => "prepare"
  | .install => "transition"

/-- How a processor will behave. -/
structure ProcessorTraits where
  openFails : Bool := false
  closeFails : Bool := false
  /-- Its open does not end before it is let go. -/
  isHeld : Bool := false
  deriving DecidableEq, Repr

structure Processor where
  number : Nat
  traits : ProcessorTraits := {}
  deriving DecidableEq, Repr

/-- Builds processors, numbered in order: the attempt with number `n` gives one with the traits
`plan n`, or is refused. -/
structure Factory where
  plan : Nat → Option ProcessorTraits := fun _ => some {}
  attempts : Nat := 0
  built : Nat := 0

inductive PartitionEvent where
  | stepCalled (step : String) (phase : Phase) (role : Option Role) (term : Nat) (target : Role)
    (targetTerm : Nat)
  | building (partition : Nat) (mode : ProcessingMode) (term : Nat) (stream : Option String)
  | processorOpened (number : Nat) (paused : Bool)
  | processorClosed (number : Nat)
  | told (delivery : Delivery)
  deriving DecidableEq, Repr

/-- A step of a role change, with what it keeps between changes. -/
inductive RoleStep where
  /-- The listener is the one that reports the stream's health. -/
  | logStream (listener : Option ListenerKey)
  | streamProcessor
  | recorder (name : String) (preparing installing : Bool)
  deriving DecidableEq, Repr

namespace RoleStep

def name : RoleStep → String
  | logStream _ => "LogStream"
  | streamProcessor => "StreamProcessor"
  | recorder name _ _ => name

end RoleStep

/-- One phase of the step with this number. -/
structure StepCall where
  phase : Phase
  step : Nat
  deriving DecidableEq, Repr

/-- What a step waits for. -/
inductive Awaited where
  /-- The open of a processor. -/
  | processor (processor : Processor)
  /-- The stream's lifecycle command with this ticket. -/
  | stream (ticket : Nat)
  deriving DecidableEq, Repr

/-- A change of role in which a step waits. -/
structure HeldChange where
  ticket : Nat
  term : Nat
  role : Role
  call : StepCall
  awaited : Awaited
  /-- What comes after the call that waits. -/
  rest : List StepCall
  deriving DecidableEq, Repr

structure Partition where
  id : Nat
  /-- Role of the last change that succeeded. -/
  role : Option Role := none
  term : Nat := 0
  /-- Whether an installed processor starts processing, or paused. -/
  shouldProcess : Bool := true
  stream : Option Lifecycle := none
  processor : Option Processor := none
  health : HealthMonitor := {}
  factory : Factory := {}
  steps : List RoleStep := []
  /-- Number for the next listener. -/
  nextListener : Nat := 0
  events : List PartitionEvent := []
  held : Option HeldChange := none
  tickets : List (Completion Unit) := []

/-- Whether a move from `current` to `target` needs a fresh processor: followers and candidates
keep theirs among themselves, every other move into an active role replaces it. -/
def shouldInstall (current : Option Role) : Role → Bool
  | .leader => true
  | .follower => current != some .candidate
  | .candidate => current != some .follower
  | .inactive => false

namespace Partition

def note (p : Partition) (event : PartitionEvent) : Partition :=
  { p with events := p.events ++ [event] }

def streamName (p : Partition) : Option String :=
  p.stream.map fun (l : Lifecycle) => l.stream.name

/-- The components of the partition in a line. -/
def description (p : Partition) : String :=
  String.join ["PartitionTransitionContext \x7b partition_id: ", toString p.id,
    ", current_role: ", Quoted.optional (p.role.map Role.name),
    ", current_term: ", toString p.term,
    ", log_stream: ", Quoted.optional (p.stream.map fun (l : Lifecycle) => l.stream.description),
    ", has_stream_processor: ", toString p.processor.isSome,
    ", should_process: ", toString p.shouldProcess, " \x7d"]

/-! ## The log stream step -/

def streamComponent (p : Partition) : String := s!"log-stream-{p.id}"

/-- Pass on what a stream's listeners were told. -/
def passOn (p : Partition) (deliveries : List Delivery) : Partition :=
  { p with
    health := deliveries.foldl HealthMonitor.absorb p.health
    events := p.events ++ deliveries.map .told }

/-- Put back a stream after it was used. -/
def takeBack (p : Partition) (l : Lifecycle) : Partition :=
  let listeners := l.stream.appender.listeners
  { p.passOn listeners.delivered with
    stream := some (l.onStream fun s => s.withAppender fun a =>
      { a with listeners := listeners.collected }) }

def onListeners (l : Lifecycle) (f : Listeners → Listeners) : Lifecycle :=
  l.onStream fun s => s.withAppender fun a => { a with listeners := f a.listeners }

/-- Remember the listener of the log stream step with this number. -/
def setListener (p : Partition) (step : Nat) (listener : Option ListenerKey) : Partition :=
  { p with steps := p.steps.set step (.logStream listener) }

/-- Report the stream's health from now on, unless this step does already. -/
def watchStream (step : Nat) (listener : Option ListenerKey) (l : Lifecycle) (p : Partition) :
    Partition :=
  match listener with
  | some _ => { p with stream := some l }
  | none =>
    let key := ListenerKey.partition p.nextListener
    { p.setListener step (some key) with
      stream := some (onListeners l (·.register ⟨key, some p.streamComponent⟩))
      health := p.health.register p.streamComponent
      nextListener := p.nextListener + 1 }

/-- What became of a step. -/
inductive StepOutcome where
  | done (outcome : Except LogError Unit)
  | held (awaited : Awaited)

/-- After the stream's lifecycle command of a step: an open stream gets the term, and is watched. -/
def endStream (call : StepCall) (term : Nat) (outcome : Except LogError Unit) :
    Attempt Partition Unit := fun p =>
  match outcome, call.phase, p.stream, p.steps[call.step]? with
  | .ok (), .install, some l, some (.logStream listener) =>
    (.ok (), watchStream call.step listener (l.onStream fun s => { s with term := term }) p)
  | outcome, _, _, _ => (outcome, p)

/-- Wait for a lifecycle command of the stream, and go on if it is carried out. -/
def awaitStream (call : StepCall) (term ticket : Nat) (l : Lifecycle) (p : Partition) :
    StepOutcome × Partition :=
  let l := l.runQueue false
  let p := p.takeBack l
  match (l.ticket ticket).outcome with
  | none => (.held (.stream ticket), p)
  | some outcome =>
    let (outcome, p) := (endStream call term outcome).run p
    (.done outcome, p)

/-- Close the stream for an inactive role. -/
def prepareStream (call : StepCall) (listener : Option ListenerKey) (term : Nat) (target : Role)
    (p : Partition) : StepOutcome × Partition :=
  if target.isActive then (.done (.ok ()), p)
  else
    match p.stream with
    | none => (.done (.ok ()), p)
    | some l =>
      let l := match listener with
        | none => l
        | some key => onListeners l (·.remove key)
      let p := { p.setListener call.step none with
        stream := some l, health := p.health.remove p.streamComponent }
      if l.stream.state = .closed then (.done (.ok ()), p)
      else
        let (ticket, l) := l.request .close
        awaitStream call term ticket l p

/-- Open the stream for an active role. -/
def installStream (call : StepCall) (term : Nat) (target : Role) (p : Partition) :
    StepOutcome × Partition :=
  if !target.isActive then (.done (.ok ()), p)
  else
    match p.stream with
    | none => (.done (.error (.invalidState (.noStream p.id))), p)
    | some l =>
      let (ticket, l) := l.request .openUp
      awaitStream call term ticket l p

/-! ## The processor step -/

def processorComponent : String := "stream-processor"

/-- Close the processor, if there is one; it is gone even if its close fails. -/
def closeProcessor : Attempt Partition Unit := fun p =>
  match p.processor with
  | none => (.ok (), p)
  | some processor =>
    let p := { p with processor := none, health := p.health.remove processorComponent }.note
      (.processorClosed processor.number)
    if processor.traits.closeFails then (.error (.processor "close failed"), p) else (.ok (), p)

/-- Build a processor and start to open it. -/
def buildProcessor (term : Nat) (target : Role) : Attempt Partition Processor := fun p =>
  let attempt := p.factory.attempts
  let noted := { p with factory := { p.factory with attempts := attempt + 1 } }.note
    (.building p.id (.ofRole target) term p.streamName)
  match p.factory.plan attempt with
  | none => (.error (.processor "factory refused to build"), noted)
  | some traits =>
    let processor : Processor := ⟨p.factory.built, traits⟩
    (.ok processor,
      { noted with factory := { noted.factory with built := noted.factory.built + 1 } }.note
        (.processorOpened processor.number (!p.shouldProcess)))

/-- The install failed: no processor is left, and the health monitor is told. -/
def failInstall (term : Nat) (target : Role) (cause : LogError) : Attempt Partition Unit := fun p =>
  (.error (.installFailed p.id target term cause),
    { p with
      processor := none
      health := p.health.report processorComponent
        (.unhealthy (LogError.installReason target term cause.message)) })

/-- The open of a processor ended. -/
def endInstall (term : Nat) (target : Role) (processor : Processor)
    (opened : Except LogError Unit) : Attempt Partition Unit := fun p =>
  match opened with
  | .ok () =>
    (.ok (), { p with
      processor := some processor, health := p.health.register processorComponent })
  | .error e => (failInstall term target e).run (p.note (.processorClosed processor.number))

/-- Build and open a processor for the role. -/
def installFresh (term : Nat) (target : Role) (p : Partition) : StepOutcome × Partition :=
  match (buildProcessor term target).run p with
  | (.error e, p) =>
    let (outcome, p) := (failInstall term target e).run p
    (.done outcome, p)
  | (.ok processor, p) =>
    if processor.traits.openFails then
      let (outcome, p) := (endInstall term target processor
        (.error (.processor "open failed"))).run p
      (.done outcome, p)
    else if processor.traits.isHeld then (.held (.processor processor), p)
    else
      let (outcome, p) := (endInstall term target processor (.ok ())).run p
      (.done outcome, p)

/-- Close a processor that the new role does not keep. -/
def prepareProcessor (target : Role) : Attempt Partition Unit := fun p =>
  if p.processor.isSome && (shouldInstall p.role target || target == .inactive) then
    closeProcessor.run p
  else (.ok (), p)

/-- Replace the processor if the role needs a fresh one, or if there is none. -/
def installProcessor (term : Nat) (target : Role) (p : Partition) : StepOutcome × Partition :=
  if target = .inactive then (.done (.ok ()), p)
  else if shouldInstall p.role target || p.processor.isNone then
    match closeProcessor.run p with
    | (.error e, p) => (.done (.error e), p)
    | (.ok (), p) => installFresh term target p
  else (.done (.ok ()), p)

/-! ## Calling a step -/

/-- Note a call of a recorder. -/
def record (name : String) (phase : Phase) (fails : Bool) (term : Nat) (target : Role) :
    Attempt Partition Unit := fun p =>
  (if fails then .error (.processor s!"{name} {phase.text} failed") else .ok (),
    p.note (.stepCalled name phase p.role p.term target term))

def finishStep (x : Attempt Partition Unit) (p : Partition) : StepOutcome × Partition :=
  match x.run p with
  | (outcome, p) => (.done outcome, p)

def callStep (term : Nat) (target : Role) (call : StepCall) (p : Partition) :
    StepOutcome × Partition :=
  match p.steps[call.step]?, call.phase with
  | none, _ => (.done (.ok ()), p)
  | some (.logStream listener), .prepare => prepareStream call listener term target p
  | some (.logStream _), .install => installStream call term target p
  | some .streamProcessor, .prepare => finishStep (prepareProcessor target) p
  | some .streamProcessor, .install => installProcessor term target p
  | some (.recorder name preparing _), .prepare =>
    finishStep (record name .prepare preparing term target) p
  | some (.recorder name _ installing), .install =>
    finishStep (record name .install installing term target) p

end Partition

end PartitionLog
