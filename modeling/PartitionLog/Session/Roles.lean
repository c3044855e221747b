import PartitionLog.Session.Log

/-!
# Health, completion and partition steps

The steps on the health monitor, on completions, and on a partition and its changes of role. A
partition has the health monitor of the workspace and, if attached, its log stream.
-/

namespace PartitionLog.Session

inductive HealthStep where
  | register (component : String)
  | remove (component : String)
  | healthy (component : String)
  | failure (component reason : String)
  | status (component : String)
  | toldFailure (component : String) (error : LogError)
  | toldRecovered (component : String)

inductive CompletionStep where
  | create (id : String)
  | finished (id : String) (outcome : Except LogError Int)
  | share (id other : String)
  | finish (id : String) (outcome : Except LogError Int)
  | info (id : String)
  /-- Wait for the outcome, for so many nanoseconds if there is a limit; somebody else may finish it
  meanwhile. -/
  | join (id : String) (limit : Option Nat) (other : Option (Except LogError Int))

/-- What is set in a partition; nothing is set to what is absent. -/
structure PartitionSettings where
  shouldProcess : Option Bool := none
  role : Option Role := none
  term : Option Nat := none
  forgetProcessor : Bool := false
  attach : Option Bool := none
  deriving DecidableEq, Repr

inductive PartitionStep where
  | create (id : Nat) (attach : Bool) (steps : List String)
  | change (term : Nat) (role : Role) (handle : Option String)
  | join (handle : String)
  | call (phase : Phase) (step : String) (term : Nat) (role : Role)
  | set (settings : PartitionSettings)
  | failStep (step : String) (phase : Phase) (on : Bool)
  | info
  | factory (failBuild failOpen failClose : Option Bool)
  | gate
  | release (error : Option LogError)

namespace Workspace

/-! ## Health -/

def changeHealth (w : Workspace) (f : HealthMonitor → HealthMonitor) : Workspace :=
  { w with health := f w.health }

def toldAs (component : String) (notice : Notice) : Delivery :=
  ⟨⟨.observer component, some component⟩, notice⟩

def healthStep (w : Workspace) : HealthStep → Answer × Workspace
  | .register component => (.done, w.changeHealth (·.register component))
  | .remove component => (.done, w.changeHealth (·.remove component))
  | .healthy component => (.done, w.changeHealth (·.report component .healthy))
  | .failure component reason =>
    (.done, w.changeHealth (·.report component (.unhealthy reason)))
  | .status component => (.ofOption .status (w.health.status component), w)
  | .toldFailure component e =>
    (.label component, w.changeHealth (·.absorb (toldAs component (.failure e))))
  | .toldRecovered component =>
    (.label component, w.changeHealth (·.absorb (toldAs component .recovered)))

/-! ## Completions -/

def createCompletion (w : Workspace) (id : String) (completion : Completion Int) :
    Answer × Workspace :=
  (.done, { w with
    completions := w.completions ++ [completion]
    completionNames := w.completionNames.put id w.completions.length })

/-- Finish a completion; the answer is whether that was its first outcome. -/
def finishCompletion (w : Workspace) (number : Nat) (outcome : Except LogError Int) :
    Bool × Workspace :=
  let completion := w.completions.getD number .pending
  let (first, completion) := completion.finish outcome
  (first, { w with completions := w.completions.set number completion })

def joined (w : Workspace) (number : Nat) : Answer :=
  match (w.completions.getD number .pending).outcome with
  | none => .label "pending"
  | some (.ok value) => .number value
  | some (.error e) => .failed e

/-- Wait for a completion. Who waits less long than the other takes sees it as it was before. -/
def joinCompletion (w : Workspace) (number : Nat) (limit : Option Nat)
    (other : Option (Except LogError Int)) : Answer × Workspace :=
  match other with
  | none => (w.joined number, w)
  | some outcome =>
    let (first, finished) := w.finishCompletion number outcome
    let seen := if limit.any (· < otherDelay) then w else finished
    (.besides (seen.joined number) first, finished)

def completionStep (w : Workspace) : CompletionStep → Answer × Workspace
  | .create id => w.createCompletion id .pending
  | .finished id outcome => w.createCompletion id (.finished outcome)
  | .share id other =>
    match w.completionNames.find? id with
    | none => (.refused, w)
    | some number =>
      (.done, { w with completionNames := w.completionNames.put other number })
  | .finish id outcome =>
    match w.completionNames.find? id with
    | none => (.refused, w)
    | some number => (w.finishCompletion number outcome).map .flag fun w => w
  | .info id =>
    match w.completionNames.find? id with
    | none => (.refused, w)
    | some number => (.progressOf (w.completions.getD number .pending), w)
  | .join id limit other =>
    match w.completionNames.find? id with
    | none => (.refused, w)
    | some number => w.joinCompletion number limit other

/-! ## Partitions -/

def usePartition (w : Workspace) (f : Partition → Answer × Partition) : Answer × Workspace :=
  match w.partition? with
  | none => (.refused, w)
  | some p =>
    let (answer, p) := f p
    (answer, w.setPartition p)

def roleStep (w : Workspace) (name : String) : RoleStep :=
  match name with
  | "LogStream" => .logStream none
  | "StreamProcessor" => .streamProcessor
  | name =>
    .recorder name (w.failingSteps.contains (name, .prepare))
      (w.failingSteps.contains (name, .install))

/-- Let recorders of this name fail in a phase, or not. -/
def setFailing (step : String) (phase : Phase) (on : Bool) : RoleStep → RoleStep
  | .recorder name preparing installing =>
    if name = step then
      match phase with
      | .prepare => .recorder name on installing
      | .install => .recorder name preparing on
    else .recorder name preparing installing
  | other => other

def failStep (w : Workspace) (step : String) (phase : Phase) (on : Bool) : Workspace :=
  let others := w.failingSteps.filter (· != (step, phase))
  { w with
    failingSteps := if on then (step, phase) :: others else others
    partition := w.partition.map fun p =>
      { p with steps := p.steps.map (setFailing step phase on) } }

def changeRole (w : Workspace) (term : Nat) (role : Role) (handle : Option String) :
    Answer × Workspace :=
  match w.partition with
  | none => (.refused, w)
  | some p =>
    let ticket := p.tickets.length
    let (answer, w) := w.usePartition fun p =>
      let (ticket, p) := p.requestRole term role
      (.ofCompletion (p.ticket ticket), p)
    match handle with
    | none => (answer, w)
    | some name =>
      (.label "started",
        { w with partitionHandles := w.partitionHandles.put name ticket }.settlePatiently)

/-- Call one phase of the first step of this name. -/
def callStep (w : Workspace) (phase : Phase) (step : String) (term : Nat) (role : Role) :
    Answer × Workspace :=
  w.usePartition fun p =>
    match p.steps.findIdx? (·.name == step) with
    | none => (.refused, p)
    | some number =>
      match Partition.callStep term role ⟨phase, number⟩ p with
      | (.done outcome, p) => (.ofOutcome outcome, p)
      | (.held _, p) => (.label "pending", p)

def changePartition (w : Workspace) (settings : PartitionSettings) : Answer × Workspace :=
  let w := { w with isAttached := settings.attach.getD w.isAttached }
  w.usePartition fun p =>
    (.done, { p with
      shouldProcess := settings.shouldProcess.getD p.shouldProcess
      role := if settings.role.isSome then settings.role else p.role
      term := settings.term.getD p.term
      processor := if settings.forgetProcessor then none else p.processor })

def partitionStep (w : Workspace) : PartitionStep → Answer × Workspace
  | .create id attach steps =>
    (.done, { w with
      partition := some { id := id, steps := steps.map w.roleStep }
      isAttached := attach
      partitionHandles := [] })
  | .change term role handle => w.changeRole term role handle
  | .join name =>
    match w.partitionHandles.find? name with
    | none => (.refused, w)
    | some ticket => w.usePartition fun p => (.ofCompletion (p.ticket ticket), p)
  | .call phase step term role => w.callStep phase step term role
  | .set settings => w.changePartition settings
  | .failStep step phase on => (.done, w.failStep step phase on)
  | .info => w.usePartition fun p => (.partitionInfo p, p)
  | .factory failBuild failOpen failClose =>
    let s := w.switches
    (.done, { w with switches := { s with
      failBuild := failBuild.getD s.failBuild
      failOpen := failOpen.getD s.failOpen
      failClose := failClose.getD s.failClose } })
  | .gate => (.done, { w with switches := { w.switches with holdOpen := true } })
  | .release error =>
    let w := { w with switches := { w.switches with holdOpen := false } }
    let opened : Except LogError Unit := match error with
      | none => .ok ()
      | some e => .error e
    match w.partition with
    | none => (.done, w)
    | some _ => w.usePartition fun p => (.done, p.letGo opened)

end Workspace

end PartitionLog.Session
