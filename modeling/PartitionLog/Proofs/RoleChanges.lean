import PartitionLog.Partition.Transition
import Mathlib.Logic.Relation

/-!
# What a change of role does with processors

`Custody` is what a partition has to tell about its processors: the one that it holds, the one
whose open a change waits for, how many were built, and what happened. All that a change does with
them comes down to a few `Turn`s: every call of a step is a sequence of these (`callStep_turned`),
and so is every move on a partition (`act_turns`). Until a change succeeds, the role that is
recorded and the tickets stay (`Steady`).
-/

namespace PartitionLog

/-- The open or the close of a processor is not told. -/
def PartitionEvent.IsAside : PartitionEvent → Prop
  | .processorOpened _ _ => False
  | .processorClosed _ => False
  | _ => True

/-! ## Custody of processors -/

structure Custody where
  /-- The processor that the partition holds. -/
  processor : Option Processor
  /-- The processor whose open is waited for. -/
  opening : Option Processor
  built : Nat
  events : List PartitionEvent

namespace Custody

/-- What can happen to processors in a change to the role `target`. -/
inductive Turn (target : Role) (c : Custody) : Custody → Prop where
  | aside (event : PartitionEvent) (h : event.IsAside) :
    Turn target c { c with events := c.events ++ [event] }
  | dismiss (pr : Processor) (h : c.processor = some pr) :
    Turn target c
      { c with processor := none, events := c.events ++ [.processorClosed pr.number] }
  | engage (traits : ProcessorTraits) (partition term : Nat) (stream : Option String)
    (paused : Bool) (hp : c.processor = none) (ho : c.opening = none) :
    Turn target c
      ⟨none, some ⟨c.built, traits⟩, c.built + 1,
        c.events ++
          [.building partition (.ofRole target) term stream, .processorOpened c.built paused]⟩
  | install (pr : Processor) (hp : c.processor = none) (ho : c.opening = some pr) :
    Turn target c { c with processor := some pr, opening := none }
  | giveUp (pr : Processor) (ho : c.opening = some pr) :
    Turn target c
      { c with opening := none, events := c.events ++ [.processorClosed pr.number] }

/-- Turns in a change to `target`, one after the other. -/
def Turns (target : Role) : Custody → Custody → Prop := Relation.ReflTransGen (Turn target)

variable {target : Role} {c d e : Custody}

theorem Turns.refl (c : Custody) : c.Turns target c := Relation.ReflTransGen.refl

theorem Turns.trans (h : c.Turns target d) (hd : d.Turns target e) : c.Turns target e :=
  Relation.ReflTransGen.trans h hd

theorem Turn.turns (h : c.Turn target d) : c.Turns target d := Relation.ReflTransGen.single h

/-- What every turn keeps, turns keep. -/
theorem Turns.keep {P : Custody → Prop} (hturn : ∀ {c d}, c.Turn target d → P c → P d)
    (h : c.Turns target d) (hc : P c) : P d := by
  induction h with
  | refl => exact hc
  | tail _ hlast ih => exact hturn hlast ih

theorem asides_turns (c : Custody) {more : List PartitionEvent}
    (h : ∀ event ∈ more, event.IsAside) : c.Turns target { c with events := c.events ++ more } := by
  induction more generalizing c with
  | nil =>
    rw [List.append_nil]
    exact .refl c
  | cons event rest ih =>
    have hfirst : c.Turn target _ := .aside event (h event List.mem_cons_self)
    have hrest := ih { c with events := c.events ++ [event] }
      fun other hmem => h other (List.mem_cons_of_mem _ hmem)
    rw [List.append_assoc, List.singleton_append] at hrest
    exact hfirst.turns.trans hrest

/-- No processor is held while one is being opened. -/
def Apart (c : Custody) : Prop := c.opening.isSome = true → c.processor = none

theorem Turn.apart (h : c.Turn target d) (hc : c.Apart) : d.Apart := by
  cases h with
  | aside => exact hc
  | dismiss => exact fun _ => rfl
  | engage => exact fun _ => rfl
  | install => exact fun ho => by simp at ho
  | giveUp => exact fun ho => by simp at ho

end Custody

/-- The processor whose open is waited for. -/
def Awaited.opening : Awaited → Option Processor
  | .processor pr => some pr
  | .stream _ => none

namespace Partition

def StepOutcome.opening : StepOutcome → Option Processor
  | .done _ => none
  | .held awaited => awaited.opening

def custody (p : Partition) (opening : Option Processor) : Custody :=
  ⟨p.processor, opening, p.factory.built, p.events⟩

/-- The processor step has the same places. -/
def StepsAlike (p q : Partition) : Prop :=
  ∀ i : Nat, q.steps[i]? = some .streamProcessor ↔ p.steps[i]? = some .streamProcessor

/-- What a change keeps until it succeeds. -/
structure Steady (p q : Partition) : Prop where
  role : q.role = p.role
  term : q.term = p.term
  tickets : q.tickets = p.tickets
  held : q.held = p.held
  count : q.steps.length = p.steps.length
  steps : p.StepsAlike q

/-- Nothing was done with a processor. -/
structure Aside (p q : Partition) : Prop where
  steady : p.Steady q
  processor : q.processor = p.processor
  built : q.factory.built = p.factory.built
  events : ∃ more, q.events = p.events ++ more ∧ ∀ event ∈ more, event.IsAside

variable {p q r : Partition} {target : Role} {term : Nat}

theorem Steady.of_steps (hrole : q.role = p.role) (hterm : q.term = p.term)
    (htickets : q.tickets = p.tickets) (hheld : q.held = p.held) (hsteps : q.steps = p.steps) :
    p.Steady q :=
  ⟨hrole, hterm, htickets, hheld, by rw [hsteps], fun i => by rw [hsteps]⟩

theorem Steady.refl (p : Partition) : p.Steady p := .of_steps rfl rfl rfl rfl rfl

theorem Steady.trans (h : p.Steady q) (hq : q.Steady r) : p.Steady r where
  role := hq.role.trans h.role
  term := hq.term.trans h.term
  tickets := hq.tickets.trans h.tickets
  held := hq.held.trans h.held
  count := hq.count.trans h.count
  steps i := (hq.steps i).trans (h.steps i)

/-- Only what is not looked at here differs. -/
theorem Aside.of_steps (hrole : q.role = p.role) (hterm : q.term = p.term)
    (htickets : q.tickets = p.tickets) (hheld : q.held = p.held) (hsteps : q.steps = p.steps)
    (hprocessor : q.processor = p.processor) (hbuilt : q.factory.built = p.factory.built)
    (hevents : q.events = p.events) : p.Aside q :=
  ⟨.of_steps hrole hterm htickets hheld hsteps, hprocessor, hbuilt, [], by simp [hevents], by simp⟩

theorem Aside.refl (p : Partition) : p.Aside p := .of_steps rfl rfl rfl rfl rfl rfl rfl rfl

theorem Aside.trans (h : p.Aside q) (hq : q.Aside r) : p.Aside r := by
  obtain ⟨first, hfirst, hf⟩ := h.events
  obtain ⟨more, hmore, hm⟩ := hq.events
  refine ⟨h.steady.trans hq.steady, hq.processor.trans h.processor, hq.built.trans h.built,
    first ++ more, by rw [hmore, hfirst, List.append_assoc], ?_⟩
  intro event hmem
  rcases List.mem_append.1 hmem with hmem | hmem
  · exact hf event hmem
  · exact hm event hmem

/-- Turns in the custody, and else nothing that a change keeps. -/
structure Turned (target : Role) (p : Partition) (opening : Option Processor) (q : Partition)
    (after : Option Processor) : Prop where
  steady : p.Steady q
  turns : (p.custody opening).Turns target (q.custody after)

theorem Turned.refl (p : Partition) (opening : Option Processor) :
    p.Turned target opening p opening := ⟨.refl p, .refl _⟩

theorem Turned.trans {o o' o'' : Option Processor} (h : p.Turned target o q o')
    (hq : q.Turned target o' r o'') : p.Turned target o r o'' :=
  ⟨h.steady.trans hq.steady, h.turns.trans hq.turns⟩

theorem Aside.turned (h : p.Aside q) (opening : Option Processor) :
    p.Turned target opening q opening := by
  obtain ⟨more, hevents, hmore⟩ := h.events
  refine ⟨h.steady, ?_⟩
  have hturns : (p.custody opening).Turns target _ := Custody.asides_turns (p.custody opening) hmore
  have hq : q.custody opening = { p.custody opening with events := p.events ++ more } := by
    unfold custody
    rw [h.processor, h.built, hevents]
  rw [hq]
  exact hturns

/-! ## Steps that leave processors alone -/

theorem note_aside (p : Partition) {event : PartitionEvent} (h : event.IsAside) :
    p.Aside (p.note event) :=
  ⟨.of_steps rfl rfl rfl rfl rfl, rfl, rfl, [event], rfl, by simpa using h⟩

theorem passOn_aside (p : Partition) (deliveries : List Delivery) :
    p.Aside (p.passOn deliveries) := by
  refine ⟨.of_steps rfl rfl rfl rfl rfl, rfl, rfl, deliveries.map .told, rfl, ?_⟩
  intro event hmem
  obtain ⟨delivery, -, rfl⟩ := List.mem_map.1 hmem
  trivial

theorem takeBack_aside (p : Partition) (l : Lifecycle) : p.Aside (p.takeBack l) :=
  (passOn_aside p _).trans (.of_steps rfl rfl rfl rfl rfl rfl rfl rfl)

/-- A listener is remembered at a log stream step. -/
theorem setListener_aside {step : Nat} {listener : Option ListenerKey}
    (h : p.steps[step]? = some (.logStream listener)) (other : Option ListenerKey) :
    p.Aside (p.setListener step other) := by
  refine ⟨⟨rfl, rfl, rfl, rfl, List.length_set, fun i => ?_⟩, rfl, rfl, [], by simp [setListener],
    by simp⟩
  show (p.steps.set step (.logStream other))[i]? = _ ↔ _
  by_cases hi : step = i
  · subst hi
    have hlt : step < p.steps.length := (List.getElem?_eq_some_iff.1 h).1
    rw [h, List.getElem?_set_self hlt]
    simp
  · rw [List.getElem?_set_ne hi]

theorem watchStream_aside {step : Nat} {listener : Option ListenerKey}
    (h : p.steps[step]? = some (.logStream listener)) (l : Lifecycle) :
    p.Aside (watchStream step listener l p) := by
  unfold watchStream
  split
  · exact .of_steps rfl rfl rfl rfl rfl rfl rfl rfl
  · have hset := setListener_aside h (some (.partition p.nextListener))
    exact hset.trans (.of_steps rfl rfl rfl rfl rfl rfl rfl rfl)

theorem endStream_aside {call : StepCall} {outcome answer : Except LogError Unit}
    (h : (endStream call term outcome).run p = (answer, q)) : p.Aside q := by
  unfold Attempt.run endStream at h
  split at h
  · next l listener _ _ _ hstep =>
    simp only [Prod.mk.injEq] at h
    obtain ⟨-, rfl⟩ := h
    exact watchStream_aside hstep _
  · simp only [Prod.mk.injEq] at h
    obtain ⟨-, rfl⟩ := h
    exact .refl p

theorem awaitStream_aside {call : StepCall} {ticket : Nat} {l : Lifecycle} {outcome : StepOutcome}
    (h : awaitStream call term ticket l p = (outcome, q)) : p.Aside q ∧ outcome.opening = none := by
  unfold awaitStream at h
  dsimp only at h
  split at h
  · simp only [Prod.mk.injEq] at h
    obtain ⟨rfl, rfl⟩ := h
    exact ⟨takeBack_aside p _, rfl⟩
  · next answer _ =>
    generalize hend : (endStream call term answer).run (p.takeBack (l.runQueue false)) = result at h
    obtain ⟨answer, after⟩ := result
    simp only [Prod.mk.injEq] at h
    obtain ⟨rfl, rfl⟩ := h
    exact ⟨(takeBack_aside p _).trans (endStream_aside hend), rfl⟩

/-- A stream that is not closed yet is told to close. -/
theorem closeStream_aside {call : StepCall} {l : Lifecycle} {outcome : StepOutcome}
    (h : (if l.stream.state = .closed then (StepOutcome.done (.ok ()), p)
      else awaitStream call term (l.request .close).1 (l.request .close).2 p) = (outcome, q)) :
    p.Aside q ∧ outcome.opening = none := by
  split at h
  · simp only [Prod.mk.injEq] at h
    obtain ⟨rfl, rfl⟩ := h
    exact ⟨.refl p, rfl⟩
  · exact awaitStream_aside h

theorem prepareStream_aside {call : StepCall} {listener : Option ListenerKey}
    {outcome : StepOutcome} (hstep : p.steps[call.step]? = some (.logStream listener))
    (h : prepareStream call listener term target p = (outcome, q)) :
    p.Aside q ∧ outcome.opening = none := by
  unfold prepareStream at h
  split at h
  · simp only [Prod.mk.injEq] at h
    obtain ⟨rfl, rfl⟩ := h
    exact ⟨.refl p, rfl⟩
  · split at h
    · simp only [Prod.mk.injEq] at h
      obtain ⟨rfl, rfl⟩ := h
      exact ⟨.refl p, rfl⟩
    · -- the listener is taken away before the stream is closed
      have hset := setListener_aside hstep none
      obtain ⟨hrest, hopening⟩ := closeStream_aside h
      refine ⟨(hset.trans ?_).trans hrest, hopening⟩
      exact .of_steps rfl rfl rfl rfl rfl rfl rfl rfl

theorem installStream_aside {call : StepCall} {outcome : StepOutcome}
    (h : installStream call term target p = (outcome, q)) :
    p.Aside q ∧ outcome.opening = none := by
  unfold installStream at h
  split at h
  · simp only [Prod.mk.injEq] at h
    obtain ⟨rfl, rfl⟩ := h
    exact ⟨.refl p, rfl⟩
  · split at h
    · simp only [Prod.mk.injEq] at h
      obtain ⟨rfl, rfl⟩ := h
      exact ⟨.refl p, rfl⟩
    · exact awaitStream_aside h

theorem record_aside {name : String} {phase : Phase} {fails : Bool} {outcome : StepOutcome}
    (h : finishStep (record name phase fails term target) p = (outcome, q)) :
    p.Aside q ∧ outcome.opening = none := by
  unfold finishStep record Attempt.run at h
  simp only [Prod.mk.injEq] at h
  obtain ⟨rfl, rfl⟩ := h
  exact ⟨note_aside p trivial, rfl⟩

/-! ## The processor step -/

theorem closeProcessor_turned (target : Role) {answer : Except LogError Unit}
    (h : closeProcessor.run p = (answer, q)) :
    p.Turned target none q none ∧ q.processor = none ∧ q.factory.built = p.factory.built := by
  unfold Attempt.run closeProcessor at h
  split at h
  · next hnone =>
    simp only [Prod.mk.injEq] at h
    obtain ⟨-, rfl⟩ := h
    exact ⟨.refl p none, hnone, rfl⟩
  · next pr hpr =>
    have hturn : (p.custody none).Turn target _ := .dismiss pr hpr
    dsimp only at h
    split at h
    · simp only [Prod.mk.injEq] at h
      obtain ⟨-, rfl⟩ := h
      exact ⟨⟨.of_steps rfl rfl rfl rfl rfl, hturn.turns⟩, rfl, rfl⟩
    · simp only [Prod.mk.injEq] at h
      obtain ⟨-, rfl⟩ := h
      exact ⟨⟨.of_steps rfl rfl rfl rfl rfl, hturn.turns⟩, rfl, rfl⟩

theorem buildProcessor_error {e : LogError}
    (h : (buildProcessor term target).run p = (.error e, q)) : p.Aside q := by
  unfold Attempt.run buildProcessor at h
  dsimp only at h
  split at h
  · simp only [Prod.mk.injEq] at h
    obtain ⟨-, rfl⟩ := h
    have hnoted : p.Aside (p.note (.building p.id (.ofRole target) term p.streamName)) :=
      note_aside p trivial
    exact hnoted.trans (.of_steps rfl rfl rfl rfl rfl rfl rfl rfl)
  · simp at h

theorem buildProcessor_ok {pr : Processor} (hp : p.processor = none)
    (h : (buildProcessor term target).run p = (.ok pr, q)) :
    p.Turned target none q (some pr) ∧ q.processor = none ∧ pr.number = p.factory.built := by
  unfold Attempt.run buildProcessor at h
  dsimp only at h
  split at h
  · simp at h
  · next traits _ =>
    simp only [Prod.mk.injEq, Except.ok.injEq] at h
    obtain ⟨rfl, rfl⟩ := h
    have hturn : (p.custody none).Turn target _ :=
      .engage traits p.id term p.streamName (!p.shouldProcess) hp rfl
    refine ⟨⟨.of_steps rfl rfl rfl rfl rfl, ?_⟩, hp, rfl⟩
    simp only [custody, note, hp, List.append_assoc, List.singleton_append] at hturn ⊢
    exact hturn.turns

theorem failInstall_aside {cause : LogError} {answer : Except LogError Unit}
    (hp : p.processor = none) (h : (failInstall term target cause).run p = (answer, q)) :
    p.Aside q ∧ answer ≠ .ok () := by
  unfold Attempt.run failInstall at h
  simp only [Prod.mk.injEq] at h
  obtain ⟨rfl, rfl⟩ := h
  exact ⟨.of_steps rfl rfl rfl rfl rfl hp.symm rfl rfl, by simp⟩

/-- The processor is held when its open succeeded, and closed when it failed. -/
theorem endInstall_turned {pr : Processor} {opened answer : Except LogError Unit}
    (hp : p.processor = none) (h : (endInstall term target pr opened).run p = (answer, q)) :
    p.Turned target (some pr) q none ∧ (answer = .ok () → q.processor = some pr) := by
  unfold endInstall Attempt.run at h
  split at h
  · simp only [Prod.mk.injEq] at h
    obtain ⟨rfl, rfl⟩ := h
    have hturn : (p.custody (some pr)).Turn target _ := .install pr hp rfl
    exact ⟨⟨.of_steps rfl rfl rfl rfl rfl, hturn.turns⟩, fun _ => rfl⟩
  · have hturn : (p.custody (some pr)).Turn target _ := .giveUp pr rfl
    obtain ⟨hrest, hfails⟩ := failInstall_aside (p := p.note (.processorClosed pr.number)) hp h
    refine ⟨.trans ⟨?_, hturn.turns⟩ (hrest.turned none), fun hok => absurd hok hfails⟩
    exact .of_steps rfl rfl rfl rfl rfl

/-- A fresh processor is built unless the factory refuses, and it is held or being opened unless its
open fails. -/
theorem installFresh_turned {outcome : StepOutcome} (hp : p.processor = none)
    (h : installFresh term target p = (outcome, q)) :
    p.Turned target none q outcome.opening ∧
      (outcome = .done (.ok ()) →
        ∃ pr, q.processor = some pr ∧ p.factory.built ≤ pr.number) := by
  unfold installFresh at h
  split at h
  · next e r hbuild =>
    have haside := buildProcessor_error hbuild
    generalize hfail : (failInstall term target e).run r = result at h
    obtain ⟨answer, after⟩ := result
    simp only [Prod.mk.injEq] at h
    obtain ⟨rfl, rfl⟩ := h
    obtain ⟨hrest, hfails⟩ := failInstall_aside (haside.processor.trans hp) hfail
    refine ⟨(haside.trans hrest).turned none, fun hok => ?_⟩
    simp only [StepOutcome.done.injEq] at hok
    exact absurd hok hfails
  · next pr r hbuild =>
    obtain ⟨hbuilt, hnone, hnumber⟩ := buildProcessor_ok hp hbuild
    split at h
    · generalize hend : (endInstall term target pr (.error (.processor "open failed"))).run r
        = result at h
      obtain ⟨answer, after⟩ := result
      simp only [Prod.mk.injEq] at h
      obtain ⟨rfl, rfl⟩ := h
      obtain ⟨hrest, hheld⟩ := endInstall_turned hnone hend
      refine ⟨hbuilt.trans hrest, fun hok => ⟨pr, hheld ?_, by omega⟩⟩
      simpa using hok
    · split at h
      · simp only [Prod.mk.injEq] at h
        obtain ⟨rfl, rfl⟩ := h
        exact ⟨hbuilt, fun hok => by simp at hok⟩
      · generalize hend : (endInstall term target pr (.ok ())).run r = result at h
        obtain ⟨answer, after⟩ := result
        simp only [Prod.mk.injEq] at h
        obtain ⟨rfl, rfl⟩ := h
        obtain ⟨hrest, hheld⟩ := endInstall_turned hnone hend
        refine ⟨hbuilt.trans hrest, fun hok => ⟨pr, hheld ?_, by omega⟩⟩
        simpa using hok

theorem prepareProcessor_turned {outcome : StepOutcome}
    (h : finishStep (prepareProcessor target) p = (outcome, q)) :
    p.Turned target none q outcome.opening := by
  unfold finishStep at h
  generalize hprepare : (prepareProcessor target).run p = result at h
  obtain ⟨answer, after⟩ := result
  simp only [Prod.mk.injEq] at h
  obtain ⟨rfl, rfl⟩ := h
  unfold Attempt.run prepareProcessor at hprepare
  split at hprepare
  · exact (closeProcessor_turned target hprepare).1
  · simp only [Prod.mk.injEq] at hprepare
    obtain ⟨-, rfl⟩ := hprepare
    exact .refl p none

/-- After the processor step was installed for an active role, a processor is held, and a fresh one
if the role needs that. -/
theorem installProcessor_turned {outcome : StepOutcome}
    (h : installProcessor term target p = (outcome, q)) :
    p.Turned target none q outcome.opening ∧
      (target ≠ .inactive → outcome = .done (.ok ()) → ∃ pr, q.processor = some pr ∧
        (shouldInstall p.role target = true → p.factory.built ≤ pr.number)) := by
  unfold installProcessor at h
  split at h
  · next hinactive =>
    simp only [Prod.mk.injEq] at h
    obtain ⟨rfl, rfl⟩ := h
    exact ⟨.refl p none, fun hactive => absurd hinactive hactive⟩
  · split at h
    · split at h
      · next e r hclose =>
        simp only [Prod.mk.injEq] at h
        obtain ⟨rfl, rfl⟩ := h
        exact ⟨(closeProcessor_turned target hclose).1, fun _ hok => by simp at hok⟩
      · next r hclose =>
        obtain ⟨hclosed, hnone, hbuilt⟩ := closeProcessor_turned target hclose
        obtain ⟨hrest, hheld⟩ := installFresh_turned hnone h
        refine ⟨hclosed.trans hrest, fun _ hok => ?_⟩
        obtain ⟨pr, hpr, hnumber⟩ := hheld hok
        exact ⟨pr, hpr, fun _ => hbuilt ▸ hnumber⟩
    · next hkeep =>
      simp only [Prod.mk.injEq] at h
      obtain ⟨rfl, rfl⟩ := h
      simp only [Bool.or_eq_true, not_or, Bool.not_eq_true, Option.isNone_eq_false_iff] at hkeep
      obtain ⟨pr, hpr⟩ := Option.isSome_iff_exists.1 hkeep.2
      refine ⟨.refl p none, fun _ _ => ⟨pr, hpr, fun hinstall => ?_⟩⟩
      rw [hkeep.1] at hinstall
      simp at hinstall

/-! ## Calls and changes -/

/-- Calling a step makes turns. -/
theorem callStep_turned {call : StepCall} {outcome : StepOutcome}
    (h : callStep term target call p = (outcome, q)) :
    p.Turned target none q outcome.opening := by
  unfold callStep at h
  split at h
  · simp only [Prod.mk.injEq] at h
    obtain ⟨rfl, rfl⟩ := h
    exact .refl p none
  · next listener hstep _ =>
    obtain ⟨haside, hopening⟩ := prepareStream_aside hstep h
    rw [hopening]
    exact haside.turned none
  · obtain ⟨haside, hopening⟩ := installStream_aside h
    rw [hopening]
    exact haside.turned none
  · exact prepareProcessor_turned h
  · exact (installProcessor_turned h).1
  · obtain ⟨haside, hopening⟩ := record_aside h
    rw [hopening]
    exact haside.turned none
  · obtain ⟨haside, hopening⟩ := record_aside h
    rw [hopening]
    exact haside.turned none

/-- The processor whose open the change waits for. -/
def ChangeOutcome.opening : ChangeOutcome → Option Processor
  | .done _ => none
  | .held _ awaited _ => awaited.opening

/-- Role and term are recorded when all calls ended well. -/
def recorded (term : Nat) (target : Role) (result : ChangeOutcome) (p : Partition) : Partition :=
  match result with
  | .done (.ok ()) => { p with role := some target, term := term }
  | _ => p

theorem custody_recorded (result : ChangeOutcome) (opening : Option Processor) :
    (p.recorded term target result).custody opening = p.custody opening := by
  unfold recorded
  split <;> rfl

/-- The calls of a change make turns. -/
theorem makeCalls_turned {calls : List StepCall} {result : ChangeOutcome}
    (h : makeCalls term target calls p = (result, q)) :
    ∃ r, p.Turned target none r result.opening ∧ q = r.recorded term target result := by
  induction calls generalizing p with
  | nil =>
    simp only [makeCalls, Prod.mk.injEq] at h
    obtain ⟨rfl, rfl⟩ := h
    exact ⟨p, .refl p none, rfl⟩
  | cons call rest ih =>
    unfold makeCalls at h
    split at h
    · next s hcall =>
      obtain ⟨r, hrest, hend⟩ := ih h
      exact ⟨r, (callStep_turned hcall).trans hrest, hend⟩
    · next e s hcall =>
      simp only [Prod.mk.injEq] at h
      obtain ⟨rfl, rfl⟩ := h
      exact ⟨s, callStep_turned hcall, rfl⟩
    · next awaited s hcall =>
      simp only [Prod.mk.injEq] at h
      obtain ⟨rfl, rfl⟩ := h
      exact ⟨s, callStep_turned hcall, rfl⟩

theorem makeCalls_turns {calls : List StepCall} {result : ChangeOutcome}
    (h : makeCalls term target calls p = (result, q)) :
    (p.custody none).Turns target (q.custody result.opening) := by
  obtain ⟨r, hturned, rfl⟩ := makeCalls_turned h
  rw [custody_recorded]
  exact hturned.turns

/-- The processor whose open the change that waits in `p` waits for. -/
def opening (p : Partition) : Option Processor := p.held.bind (·.awaited.opening)

theorem conclude_custody (ticket : Nat) (result : ChangeOutcome) :
    (conclude ticket term target (result, p)).custody
        (conclude ticket term target (result, p)).opening
      = p.custody result.opening := by
  cases result with
  | done outcome => rfl
  | held call awaited rest => rfl

/-! ## Moves -/

/-- What others set in a partition. -/
structure Surroundings where
  shouldProcess : Bool
  stream : Option Lifecycle
  health : HealthMonitor
  plan : Nat → Option ProcessorTraits
  /-- Whether the recorder of this name fails in a phase. -/
  failing : String → Phase → Bool

def Surroundings.setFailing (s : Surroundings) : RoleStep → RoleStep
  | .recorder name _ _ => .recorder name (s.failing name .prepare) (s.failing name .install)
  | other => other

def surround (p : Partition) (s : Surroundings) : Partition :=
  { p with
    shouldProcess := s.shouldProcess
    stream := s.stream
    health := s.health
    factory := { p.factory with plan := s.plan }
    steps := p.steps.map s.setFailing }

theorem surround_steady (p : Partition) (s : Surroundings) : p.Steady (p.surround s) := by
  refine ⟨rfl, rfl, rfl, rfl, List.length_map .., fun i => ?_⟩
  show (p.steps.map s.setFailing)[i]? = _ ↔ _
  rw [List.getElem?_map]
  cases p.steps[i]? with
  | none => simp
  | some step => cases step <;> simp [Surroundings.setFailing]

/-- A request, the end of what a change waits for, or something that others do. -/
inductive Move where
  | request (term : Nat) (target : Role)
  | letGo (opened : Except LogError Unit)
  | resume
  | surround (s : Surroundings)

def act (p : Partition) : Move → Partition
  | .request term target => (p.requestRole term target).2
  | .letGo opened => p.letGo opened
  | .resume => p.resume
  | .surround s => p.surround s

def after (p : Partition) (moves : List Move) : Partition := moves.foldl act p

/-- A request is carried out if no change waits. -/
theorem requestRole_idle (h : p.held = none) (term : Nat) (target : Role) :
    (p.requestRole term target).2 = conclude p.tickets.length term target
      (makeCalls term target (plannedCalls p.steps.length)
        { p with tickets := p.tickets ++ [.pending] }) := by
  unfold requestRole
  rw [if_neg (by simp [h])]
  rfl

theorem requestRole_busy (h : p.held ≠ none) (term : Nat) (target : Role) :
    (p.requestRole term target).2 = { p with
      tickets := p.tickets ++ [.finished (.error (.transitionInProgress p.id target.text))] } := by
  unfold requestRole
  rw [if_pos (Option.isSome_iff_ne_none.2 h)]
  rfl

theorem opening_of_held {change : HeldChange} (h : p.held = some change) :
    p.opening = change.awaited.opening := by
  unfold opening
  rw [h]
  rfl

theorem requestRole_turns (p : Partition) (term : Nat) (target : Role) :
    (p.custody p.opening).Turns target
      ((p.requestRole term target).2.custody (p.requestRole term target).2.opening) := by
  by_cases hidle : p.held = none
  · have hopening : p.opening = none := by
      unfold opening
      rw [hidle]
      rfl
    rw [requestRole_idle hidle, hopening]
    generalize hcalls : makeCalls term target (plannedCalls p.steps.length)
      { p with tickets := p.tickets ++ [.pending] } = result
    obtain ⟨result, q⟩ := result
    have hturns := makeCalls_turns hcalls
    rw [conclude_custody]
    exact hturns
  · rw [requestRole_busy hidle]
    exact .refl _

theorem goOn_turns {change : HeldChange} {answer : Except LogError Unit} :
    (p.custody none).Turns change.role
      ((goOn change (answer, p)).custody (goOn change (answer, p)).opening) := by
  cases answer with
  | ok done =>
    unfold goOn
    dsimp only
    generalize hcalls : makeCalls change.term change.role change.rest p = result
    obtain ⟨result, q⟩ := result
    rw [conclude_custody]
    exact makeCalls_turns hcalls
  | error e => exact .refl _

theorem letGo_turns (h : (p.custody p.opening).Apart) (opened : Except LogError Unit) :
    ∃ target, (p.custody p.opening).Turns target
      ((p.letGo opened).custody (p.letGo opened).opening) := by
  unfold letGo
  split
  · exact ⟨.inactive, .refl _⟩
  · next change hheld =>
    refine ⟨change.role, ?_⟩
    split
    · next pr hawaited =>
      have hopening : p.opening = some pr := by
        rw [opening_of_held hheld, hawaited]
        rfl
      rw [hopening] at h ⊢
      generalize hend : (endInstall change.term change.role pr opened).run p = result
      obtain ⟨answer, q⟩ := result
      exact (endInstall_turned (h rfl) hend).1.turns.trans goOn_turns
    · exact .refl _

theorem resume_turns (p : Partition) :
    ∃ target, (p.custody p.opening).Turns target (p.resume.custody p.resume.opening) := by
  unfold resume
  split
  · next change l hheld _ =>
    refine ⟨change.role, ?_⟩
    split
    · exact .refl _
    · next ticket hawaited =>
      have hopening : p.opening = none := by
        rw [opening_of_held hheld, hawaited]
        rfl
      split
      · exact .refl _
      · next outcome _ =>
        generalize hend : (endStream change.call change.term outcome).run p = result
        obtain ⟨answer, q⟩ := result
        rw [hopening]
        exact ((endStream_aside hend).turned none).turns.trans goOn_turns
  · exact ⟨.inactive, .refl _⟩

/-- A move makes turns in the custody. -/
theorem act_turns (p : Partition) (move : Move) (h : (p.custody p.opening).Apart) :
    ∃ target, (p.custody p.opening).Turns target ((p.act move).custody (p.act move).opening) := by
  cases move with
  | request term target => exact ⟨target, requestRole_turns p term target⟩
  | letGo opened => exact letGo_turns h opened
  | resume => exact resume_turns p
  | surround s => exact ⟨.inactive, .refl _⟩

/-- What every turn keeps holds after all moves. -/
theorem kept_after {P : Custody → Prop} (hapart : ∀ {c}, P c → c.Apart)
    (hturn : ∀ {target c d}, c.Turn target d → P c → P d) (h : P (p.custody p.opening))
    (moves : List Move) : P ((p.after moves).custody (p.after moves).opening) := by
  induction moves generalizing p with
  | nil => exact h
  | cons move rest ih =>
    obtain ⟨target, hturns⟩ := act_turns p move (hapart h)
    exact ih (hturns.keep hturn h)

end Partition

end PartitionLog
