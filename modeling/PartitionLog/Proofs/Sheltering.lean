import PartitionLog.Proofs.Processors
import PartitionLog.Proofs.Switching

/-!
# No processor outlives its stream

A partition is `rigged` with a log stream that only its changes of role open and close, and with the
steps for the stream and the processor. `Deed`s are what comes to it: requests, the ends of what
changes wait for, and others who use the stream. Each call of a change keeps a processor within an
open stream (`Rigged`), and no call works on both, so whatever the deeds, a stream stops being open
only after its processor was closed (`processor_within_stream`).
-/

namespace PartitionLog

open PartitionEvent (timesOpened timesClosed)

/-! ## Others who use the stream -/

/-- What others do with a stream that they neither open nor close. -/
inductive StreamUse where
  | touch (f : LogStream → LogStream) (h : ∀ s, (f s).state = s.state)
  | ask (command : Command) (h : command.switches = false)
  /-- The lifecycle takes a step, if it can. -/
  | advance (patient : Bool)

def StreamUse.on (l : Lifecycle) : StreamUse → Lifecycle
  | .touch f _ => l.onStream f
  | .ask command _ => (l.request command).2
  | .advance patient => (l.advance patient).getD l

namespace Lifecycle

variable {l : Lifecycle} {t : Nat} {command : Command}

theorem state_request_of_not_switches (l : Lifecycle) (h : command.switches = false) :
    (l.request command).2.stream = l.stream := by
  rw [request_of_not_switches l h]
  rfl

theorem Resting.use (h : l.Resting) (use : StreamUse) :
    (use.on l).Resting ∧ (use.on l).stream.state = l.stream.state := by
  cases use with
  | touch f hf => exact ⟨h.onStream (hf _), hf _⟩
  | ask command hc =>
    exact ⟨h.request hc, congrArg LogStream.state (l.state_request_of_not_switches hc)⟩
  | advance patient =>
    rw [show StreamUse.on l (.advance patient) = (l.advance patient).getD l from rfl]
    cases hnext : l.advance patient with
    | none => exact ⟨h, rfl⟩
    | some next => exact h.step hnext

theorem Bound.use (h : l.Bound t command) (use : StreamUse) : (use.on l).Bound t command ∧
    (command = .openUp → l.stream.state = .opened → (use.on l).stream.state = .opened) := by
  cases use with
  | touch f hf => exact ⟨h.onStream (hf _), fun _ hs => (hf _).trans hs⟩
  | ask other hc =>
    refine ⟨h.request hc, fun _ hs => ?_⟩
    exact (congrArg LogStream.state (l.state_request_of_not_switches hc)).trans hs
  | advance patient =>
    rw [show StreamUse.on l (.advance patient) = (l.advance patient).getD l from rfl]
    cases hnext : l.advance patient with
    | none => exact ⟨h, fun _ hs => hs⟩
    | some next => exact h.step hnext

end Lifecycle

namespace Partition

/-! ## Deeds and the states on their way -/

/-- A partition with a stream and the steps for it and for the processor. -/
def rigged (id : Nat) (s : LogStream) : Partition where
  id := id
  stream := some { stream := s }
  steps := [.logStream none, .streamProcessor]

inductive Deed where
  | request (term : Nat) (target : Role)
  | letGo (opened : Except LogError Unit)
  | resume
  /-- Others set what processors are built from now on, and how. -/
  | equip (shouldProcess : Bool) (health : HealthMonitor) (plan : Nat → Option ProcessorTraits)
  | useStream (use : StreamUse)

def Deed.move (p : Partition) : Deed → Move
  | .request term target => .request term target
  | .letGo opened => .letGo opened
  | .resume => .resume
  | .equip shouldProcess health plan =>
    .surround ⟨shouldProcess, p.stream, health, plan, fun _ _ => false⟩
  | .useStream use =>
    .surround ⟨p.shouldProcess, p.stream.map use.on, p.health, p.factory.plan, fun _ _ => false⟩

def carryOut (p : Partition) (deed : Deed) : Partition := p.act (deed.move p)

/-- The states after the calls that are made. -/
def callStates (term : Nat) (target : Role) : List StepCall → Partition → List Partition
  | [], _ => []
  | call :: rest, p =>
    match callStep term target call p with
    | (.done (.ok ()), q) => q :: callStates term target rest q
    | (_, q) => [q]

/-- The states in which a change goes on, once the call that it waited for ended. -/
def goingOn (change : HeldChange) (result : Except LogError Unit × Partition) : List Partition :=
  match result with
  | (.ok (), p) => p :: callStates change.term change.role change.rest p
  | (.error _, p) => [p]

/-- The states on the way from `p` to what a deed makes of it. -/
def passed (p : Partition) : Deed → List Partition
  | .request term target =>
    if p.held.isSome then []
    else callStates term target (plannedCalls p.steps.length) (p.issue .pending).2
  | .letGo opened =>
    match p.held with
    | none => []
    | some change =>
      match change.awaited with
      | .processor pr => goingOn change ((endInstall change.term change.role pr opened).run p)
      | .stream _ => []
  | .resume =>
    match p.held, p.stream with
    | some change, some l =>
      match change.awaited with
      | .processor _ => []
      | .stream ticket =>
        match (l.ticket ticket).outcome with
        | none => []
        | some outcome => goingOn change ((endStream change.call change.term outcome).run p)
    | _, _ => []
  | _ => []

def carriedOut (p : Partition) (deeds : List Deed) : Partition := deeds.foldl carryOut p

/-- All states from `p` on. -/
def course (p : Partition) : List Deed → List Partition
  | [] => [p]
  | deed :: rest => p :: p.passed deed ++ (p.carryOut deed).course rest

def streamState (p : Partition) : Option StreamState := p.stream.map (·.stream.state)

/-- Every processor was closed as often as it was opened, and none is held. -/
def Vacated (p : Partition) : Prop :=
  p.processor = none ∧ ∀ n, timesOpened n p.events = timesClosed n p.events

/-- There is no processor without an open stream. -/
def Within (p : Partition) : Prop := p.streamState ≠ some .opened → p.Vacated

/-- A stream does not stop being open before every processor was closed. -/
def Guarded (p q : Partition) : Prop :=
  p.streamState = some .opened → q.streamState ≠ some .opened → p.Vacated

/-! ## No call works on both -/

/-- The stream is the same, or nothing was done with a processor. -/
def Gentle (p q : Partition) : Prop :=
  q.stream = p.stream ∨ q.processor = p.processor ∧
    ∀ n, timesOpened n q.events = timesOpened n p.events ∧
      timesClosed n q.events = timesClosed n p.events

variable {p q r : Partition} {l : Lifecycle} {target : Role} {term : Nat}

theorem Gentle.guards (h : p.Gentle q) (hq : q.Within) : p.Guarded q := by
  intro hp hnot
  rcases h with hstream | ⟨hprocessor, hcounts⟩
  · rw [streamState, hstream] at hnot
    exact absurd hp hnot
  · obtain ⟨hnone, hclosed⟩ := hq hnot
    refine ⟨hprocessor ▸ hnone, fun n => ?_⟩
    rw [← (hcounts n).1, ← (hcounts n).2]
    exact hclosed n

theorem Aside.gentle (h : p.Aside q) : p.Gentle q := by
  obtain ⟨more, hevents, haside⟩ := h.events
  refine .inr ⟨h.processor, fun n => ?_⟩
  have hopens : more.countP (·.opens n) = 0 :=
    List.countP_eq_zero.2 fun event hmem => by simp [(haside event hmem).not_opens n]
  have hcloses : more.countP (·.closes n) = 0 :=
    List.countP_eq_zero.2 fun event hmem => by simp [(haside event hmem).not_closes n]
  simp [timesOpened, timesClosed, hevents, List.countP_append, hopens, hcloses]

/-- The stream and the steps are the same. -/
structure Beside (p q : Partition) : Prop where
  stream : q.stream = p.stream
  steps : q.steps = p.steps

theorem Beside.refl (p : Partition) : p.Beside p := ⟨rfl, rfl⟩

theorem Beside.trans (h : p.Beside q) (hq : q.Beside r) : p.Beside r :=
  ⟨hq.stream.trans h.stream, hq.steps.trans h.steps⟩

theorem Beside.gentle (h : p.Beside q) : p.Gentle q := .inl h.stream

theorem closeProcessor_beside (p : Partition) : p.Beside (closeProcessor.run p).2 := by
  unfold Attempt.run closeProcessor
  split
  · exact .refl p
  · dsimp only
    split <;> exact ⟨rfl, rfl⟩

theorem endInstall_beside (p : Partition) (term : Nat) (target : Role) (pr : Processor)
    (opened : Except LogError Unit) : p.Beside ((endInstall term target pr opened).run p).2 := by
  unfold Attempt.run endInstall
  split <;> exact ⟨rfl, rfl⟩

theorem buildProcessor_beside (p : Partition) (term : Nat) (target : Role) :
    p.Beside ((buildProcessor term target).run p).2 := by
  unfold Attempt.run buildProcessor
  dsimp only
  split <;> exact ⟨rfl, rfl⟩

theorem installFresh_beside (p : Partition) (term : Nat) (target : Role) :
    p.Beside (installFresh term target p).2 := by
  have hbuild := buildProcessor_beside p term target
  unfold installFresh
  generalize (buildProcessor term target).run p = result at hbuild ⊢
  obtain ⟨answer, q⟩ := result
  cases answer with
  | error e => exact hbuild.trans ⟨rfl, rfl⟩
  | ok pr =>
    dsimp only
    split
    · exact hbuild.trans (endInstall_beside q term target pr _)
    · split
      · exact hbuild
      · exact hbuild.trans (endInstall_beside q term target pr _)

theorem installProcessor_beside (p : Partition) (term : Nat) (target : Role) :
    p.Beside (installProcessor term target p).2 := by
  have hclose := closeProcessor_beside p
  unfold installProcessor
  split
  · exact .refl p
  · split
    · generalize closeProcessor.run p = result at hclose ⊢
      obtain ⟨answer, q⟩ := result
      cases answer with
      | error e => exact hclose
      | ok done => exact hclose.trans (installFresh_beside q term target)
    · exact .refl p

theorem prepareProcessor_beside (p : Partition) (target : Role) :
    p.Beside (finishStep (prepareProcessor target) p).2 := by
  show p.Beside ((prepareProcessor target).run p).2
  unfold Attempt.run prepareProcessor
  split
  · exact closeProcessor_beside p
  · exact .refl p

/-! ## The parts of a rigged partition -/

/-- A processor is held only in the active role that is recorded. -/
def Ranked (p : Partition) : Prop :=
  p.processor.isSome → ∃ role, p.role = some role ∧ role.isActive = true

/-- The two steps, the stream, and the processor within it. -/
structure Rigged (p : Partition) (opening : Option Processor) (l : Lifecycle) : Prop where
  steps : ∃ listener, p.steps = [.logStream listener, .streamProcessor]
  stream : p.stream = some l
  tracked : (p.custody opening).Tracked
  sheltered : (p.custody opening).inHand.isSome → l.stream.state = .opened

variable {opening : Option Processor}

theorem Rigged.streamState (h : p.Rigged opening l) : p.streamState = some l.stream.state := by
  rw [Partition.streamState, h.stream]
  rfl

theorem Rigged.within (h : p.Rigged opening l) : p.Within := by
  intro hnot
  rw [h.streamState] at hnot
  have hnone : (p.custody opening).inHand = none := by
    cases hhand : (p.custody opening).inHand with
    | none => rfl
    | some pr =>
      refine absurd ?_ hnot
      rw [h.sheltered (by rw [hhand]; rfl)]
  refine ⟨?_, fun n => ?_⟩
  · have hfree : p.processor.or opening = none := hnone
    exact (Option.or_eq_none_iff.1 hfree).1
  · have hopened := h.tracked.opened n
    have hclosed := h.tracked.closed n
    rw [hnone] at hclosed
    simp only [Option.map_none, ne_eq, reduceCtorEq, not_false_eq_true, and_true] at hclosed
    exact hopened.trans hclosed.symm

theorem Rigged.opened (h : p.Rigged none l) (hp : p.processor.isSome = true) :
    l.stream.state = .opened := by
  refine h.sheltered ?_
  rw [Custody.inHand, show (p.custody none).opening = none from rfl, Option.or_none]
  exact hp

/-- Only the stream differs. -/
theorem Rigged.of_stream (h : p.Rigged none l) {m : Lifecycle} (haside : p.Aside q)
    (hsteps : ∃ listener, q.steps = [.logStream listener, .streamProcessor])
    (hstream : q.stream = some m)
    (hstate : p.processor.isSome = true → m.stream.state = .opened) : q.Rigged none m where
  steps := hsteps
  stream := hstream
  tracked := by
    have hturned : p.Turned .inactive none q none := haside.turned none
    exact hturned.turns.keep (fun hturn hc => hturn.tracked hc) h.tracked
  sheltered := by
    intro hhand
    apply hstate
    rw [Custody.inHand, show (q.custody none).opening = none from rfl, Option.or_none] at hhand
    rw [← haside.processor]
    exact hhand

/-- Something was done with processors within a stream that is open, or a processor was closed. -/
theorem Rigged.of_turns (h : p.Rigged opening l) {after : Option Processor} (hbeside : p.Beside q)
    (hturns : (p.custody opening).Turns target (q.custody after))
    (hstate : l.stream.state = .opened ∨ q.processor = none ∧ after = none) :
    q.Rigged after l where
  steps := hbeside.steps ▸ h.steps
  stream := hbeside.stream.trans h.stream
  tracked := hturns.keep (fun hturn hc => hturn.tracked hc) h.tracked
  sheltered := by
    intro hhand
    rcases hstate with hopened | ⟨hnone, rfl⟩
    · exact hopened
    · rw [Custody.inHand, show (q.custody none).processor = none from hnone] at hhand
      cases hhand

theorem Ranked.of_none (h : p.processor = none) : p.Ranked := by
  intro hp
  rw [h] at hp
  cases hp

theorem Ranked.of_same (h : p.Ranked) (hprocessor : q.processor = p.processor)
    (hrole : q.role = p.role) : q.Ranked := by
  intro hp
  rw [hprocessor] at hp
  rw [hrole]
  exact h hp

/-! ## The processor's calls -/

theorem closeProcessor_spec (p : Partition) :
    (closeProcessor.run p).2.processor = none ∧ (closeProcessor.run p).2.role = p.role := by
  unfold Attempt.run closeProcessor
  split
  · next hnone => exact ⟨hnone, rfl⟩
  · dsimp only
    split <;> exact ⟨rfl, rfl⟩

/-- Preparing dismisses the processor for an inactive role, and else keeps it or not. -/
theorem prepareProcessor_spec {outcome : StepOutcome} (h : p.Rigged none l) (hr : p.Ranked)
    (hcall : finishStep (prepareProcessor target) p = (outcome, q)) :
    (∃ answer, outcome = .done answer) ∧ q.Rigged none l ∧ q.Ranked ∧
      (target = .inactive → q.processor = none) := by
  have hbeside := prepareProcessor_beside p target
  have hturned := prepareProcessor_turned hcall
  rw [hcall] at hbeside
  unfold finishStep at hcall
  generalize hprepare : (prepareProcessor target).run p = result at hcall
  obtain ⟨answer, after⟩ := result
  simp only [Prod.mk.injEq] at hcall
  obtain ⟨rfl, rfl⟩ := hcall
  unfold Attempt.run prepareProcessor at hprepare
  split at hprepare
  · have hnone := (closeProcessor_spec p).1
    rw [show closeProcessor.run p = _ from hprepare] at hnone
    exact ⟨⟨answer, rfl⟩, h.of_turns hbeside hturned.turns (.inr ⟨hnone, rfl⟩), .of_none hnone,
      fun _ => hnone⟩
  · next hkeep =>
    simp only [Prod.mk.injEq] at hprepare
    obtain ⟨-, rfl⟩ := hprepare
    refine ⟨⟨answer, rfl⟩, h, hr, fun hinactive => ?_⟩
    subst hinactive
    simpa using hkeep

theorem installFresh_none {outcome : StepOutcome} (hp : p.processor = none)
    (h : installFresh term target p = (outcome, q)) :
    outcome = .done (.ok ()) ∨ q.processor = none := by
  unfold installFresh at h
  split at h
  · simp only [Prod.mk.injEq] at h
    obtain ⟨-, rfl⟩ := h
    exact .inr rfl
  · next pr r hbuild =>
    obtain ⟨-, hnone, -⟩ := buildProcessor_ok hp hbuild
    split at h
    · simp only [Prod.mk.injEq] at h
      obtain ⟨-, rfl⟩ := h
      exact .inr rfl
    · split at h
      · simp only [Prod.mk.injEq] at h
        obtain ⟨-, rfl⟩ := h
        exact .inr hnone
      · simp only [Prod.mk.injEq] at h
        obtain ⟨rfl, -⟩ := h
        exact .inl rfl

/-- Installing works on processors only within an open stream. If it fails or waits, none is held. -/
theorem installProcessor_spec {outcome : StepOutcome} (h : p.Rigged none l)
    (hcall : installProcessor term target p = (outcome, q))
    (hopened : target ≠ .inactive → l.stream.state = .opened) :
    q.Rigged outcome.opening l ∧ (outcome = .done (.ok ()) ∨ q.processor = none) ∧
      (target = .inactive → q = p ∧ outcome = .done (.ok ())) := by
  have hbeside := installProcessor_beside p term target
  have hturned := (installProcessor_turned hcall).1
  rw [hcall] at hbeside
  unfold installProcessor at hcall
  split at hcall
  · simp only [Prod.mk.injEq] at hcall
    obtain ⟨rfl, rfl⟩ := hcall
    exact ⟨h, .inl rfl, fun _ => ⟨rfl, rfl⟩⟩
  · next hactive =>
    refine ⟨h.of_turns hbeside hturned.turns (.inl (hopened hactive)), ?_,
      fun hinactive => absurd hinactive hactive⟩
    split at hcall
    · have hclosed := (closeProcessor_spec p).1
      split at hcall
      · next e r hclose =>
        simp only [Prod.mk.injEq] at hcall
        obtain ⟨rfl, rfl⟩ := hcall
        rw [hclose] at hclosed
        exact .inr hclosed
      · next r hclose =>
        rw [hclose] at hclosed
        exact installFresh_none hclosed hcall
    · simp only [Prod.mk.injEq] at hcall
      obtain ⟨rfl, rfl⟩ := hcall
      exact .inl rfl

end Partition

end PartitionLog
