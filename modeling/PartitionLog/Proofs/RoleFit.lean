import PartitionLog.Proofs.Modes
import PartitionLog.Proofs.Processors

/-!
# Whether the processor fits the role

A change to an active role that ends well leaves a processor, and a fresh one if the role that is
recorded asks for that: its calls owe it until the processor step is installed (`Owed`). But the
role that is recorded is that of the last change that succeeded, and not the one that the processor
was built for. So the processor fits the new role just if no change to the leader that failed left
it behind (`processor_fits`), and a follower may hold a processor that processes
(`processor_misfits_follower`). `RoleRun` keeps account of what was left behind over any moves.
-/

namespace PartitionLog

open PartitionEvent (builds)

/-! ## What the calls of a change owe -/

namespace Partition

variable {p q r : Partition} {target : Role} {term base : Nat}

/-- A processor is held. It was built for the change if the role that is recorded asks for that. -/
def Suited (base : Nat) (target : Role) (p : Partition) : Prop :=
  ∃ pr, p.processor = some pr ∧ (shouldInstall p.role target = true → base ≤ pr.number)

/-- The calls install after they prepared, and the processor step is among those that install,
unless it was installed. -/
structure Owed (base : Nat) (target : Role) (p : Partition) (calls : List StepCall) : Prop where
  ordered : calls.Pairwise fun call next => call.phase = .install → next.phase = .install
  owed : (∃ call ∈ calls, call.phase = .install ∧ p.steps[call.step]? = some .streamProcessor) ∨
    ((∀ call ∈ calls, call.phase = .install) ∧ p.Suited base target)

/-- What is left to be called behind a call that waits. -/
def Pledged (base : Nat) (target : Role) (p : Partition) (awaited : Awaited)
    (rest : List StepCall) : Prop :=
  match awaited with
  | .processor _ => ∀ call ∈ rest, call.phase = .install
  | .stream _ => p.Owed base target rest

theorem Suited.of_same (h : p.Suited base target) (hprocessor : q.processor = p.processor)
    (hrole : q.role = p.role) : q.Suited base target := by
  unfold Suited
  rw [hprocessor, hrole]
  exact h

theorem Owed.of_same {calls : List StepCall} (h : p.Owed base target calls)
    (hprocessor : q.processor = p.processor) (hrole : q.role = p.role)
    (hsteps : p.StepsAlike q) :
    q.Owed base target calls where
  ordered := h.ordered
  owed := by
    rcases h.owed with ⟨call, hmem, hphase, hstep⟩ | ⟨hall, hsuited⟩
    · exact .inl ⟨call, hmem, hphase, (hsteps _).2 hstep⟩
    · exact .inr ⟨hall, hsuited.of_same hprocessor hrole⟩

theorem Pledged.of_same {awaited : Awaited} {rest : List StepCall}
    (h : p.Pledged base target awaited rest) (hprocessor : q.processor = p.processor)
    (hrole : q.role = p.role)
    (hsteps : p.StepsAlike q) :
    q.Pledged base target awaited rest := by
  cases awaited with
  | processor pr => exact h
  | stream ticket => exact Owed.of_same h hprocessor hrole hsteps

theorem StepsAlike.mem (h : p.StepsAlike q) (hmem : .streamProcessor ∈ p.steps) :
    .streamProcessor ∈ q.steps := by
  obtain ⟨i, hi⟩ := List.mem_iff_getElem?.1 hmem
  exact List.mem_iff_getElem?.2 ⟨i, (h i).2 hi⟩

theorem owed_plannedCalls (base : Nat) (target : Role) (h : .streamProcessor ∈ p.steps) :
    p.Owed base target (plannedCalls p.steps.length) where
  ordered := by
    refine List.pairwise_append.2 ⟨?_, ?_, ?_⟩
    · exact List.pairwise_map.2 (List.pairwise_of_forall fun _ _ hphase => by simp at hphase)
    · exact List.pairwise_map.2 (List.pairwise_of_forall fun _ _ _ => rfl)
    · intro call _ next hnext _
      obtain ⟨i, -, rfl⟩ := List.mem_map.1 hnext
      rfl
  owed := by
    obtain ⟨i, hlt, hstep⟩ := List.getElem_of_mem h
    refine .inl ⟨⟨.install, i⟩, List.mem_append_right _ ?_, rfl, ?_⟩
    · exact List.mem_map_of_mem (List.mem_range.2 hlt)
    · rw [← hstep]
      exact List.getElem?_eq_getElem hlt

theorem installProcessor_held {awaited : Awaited}
    (h : installProcessor term target p = (.held awaited, q)) : ∃ pr, awaited = .processor pr := by
  unfold installProcessor installFresh at h
  repeat' split at h
  all_goals simp only [Prod.mk.injEq, StepOutcome.held.injEq, reduceCtorEq, false_and] at h
  exact ⟨_, h.1.symm⟩

/-- A call that installs and ends well leaves a suited processor if it found one, or if it is the
processor step's. -/
theorem callStep_suited {call : StepCall} (hactive : target ≠ .inactive)
    (hbase : base ≤ p.factory.built) (hphase : call.phase = .install)
    (h : callStep term target call p = (.done (.ok ()), q))
    (hsuited : p.steps[call.step]? = some .streamProcessor ∨ p.Suited base target) :
    q.Suited base target := by
  have haside : ∀ {r}, p.Aside r → p.steps[call.step]? ≠ some .streamProcessor →
      r.Suited base target := fun hr hother =>
    (hsuited.resolve_left hother).of_same hr.processor hr.steady.role
  have hrole := (callStep_turned h).steady.role
  unfold callStep at h
  rw [hphase] at h
  split at h
  · next hnone =>
    simp only [Prod.mk.injEq] at h
    obtain ⟨-, rfl⟩ := h
    exact haside (.refl p) (by simp [hnone])
  · next hprepare => simp at hprepare
  · next hstep _ => exact haside (installStream_aside h).1 (by simp [hstep])
  · next hprepare => simp at hprepare
  · obtain ⟨pr, hpr, hfresh⟩ := (installProcessor_turned h).2 hactive rfl
    exact ⟨pr, hpr, fun hinstall => Nat.le_trans hbase (hfresh (hrole ▸ hinstall))⟩
  · next hprepare => simp at hprepare
  · next hstep _ => exact haside (record_aside h).1 (by simp [hstep])

theorem callStep_owed {call : StepCall} {rest : List StepCall} (hactive : target ≠ .inactive)
    (hbase : base ≤ p.factory.built) (ho : p.Owed base target (call :: rest))
    (h : callStep term target call p = (.done (.ok ()), q)) : q.Owed base target rest := by
  obtain ⟨hfirst, hrest⟩ := List.pairwise_cons.1 ho.ordered
  have hsteps := (callStep_turned h).steady.steps
  refine ⟨hrest, ?_⟩
  rcases ho.owed with ⟨other, hmem, hphase, hstep⟩ | ⟨hall, hsuited⟩
  · rcases List.mem_cons.1 hmem with rfl | hmem
    · refine .inr ⟨fun next hnext => hfirst next hnext hphase, ?_⟩
      exact callStep_suited hactive hbase hphase h (.inl hstep)
    · exact .inl ⟨other, hmem, hphase, (hsteps _).2 hstep⟩
  · refine .inr ⟨fun next hnext => hall next (List.mem_cons_of_mem _ hnext), ?_⟩
    exact callStep_suited hactive hbase (hall call List.mem_cons_self) h (.inr hsuited)

theorem callStep_pledged {call : StepCall} {rest : List StepCall} {awaited : Awaited}
    (ho : p.Owed base target (call :: rest))
    (h : callStep term target call p = (.held awaited, q)) :
    q.Pledged base target awaited rest := by
  obtain ⟨hfirst, hrest⟩ := List.pairwise_cons.1 ho.ordered
  have hsteps := (callStep_turned h).steady.steps
  -- a call that waits for the stream leaves what is owed to the others
  have hstream : p.Aside q → awaited.opening = none →
      p.steps[call.step]? ≠ some .streamProcessor → q.Pledged base target awaited rest := by
    intro hq hnone hother
    cases awaited with
    | processor pr => simp [Awaited.opening] at hnone
    | stream ticket =>
      refine ⟨hrest, ?_⟩
      rcases ho.owed with ⟨other, hmem, hphase, hstep⟩ | ⟨hall, hsuited⟩
      · rcases List.mem_cons.1 hmem with rfl | hmem
        · exact absurd hstep hother
        · exact .inl ⟨other, hmem, hphase, (hsteps _).2 hstep⟩
      · exact .inr ⟨fun next hnext => hall next (List.mem_cons_of_mem _ hnext),
          hsuited.of_same hq.processor hq.steady.role⟩
  unfold callStep at h
  split at h
  · simp at h
  · next hstep _ =>
    obtain ⟨hq, hnone⟩ := prepareStream_aside hstep h
    exact hstream hq hnone (by simp [hstep])
  · next hstep _ =>
    obtain ⟨hq, hnone⟩ := installStream_aside h
    exact hstream hq hnone (by simp [hstep])
  · unfold finishStep at h
    simp at h
  · next hphase =>
    obtain ⟨pr, rfl⟩ := installProcessor_held h
    exact fun next hnext => hfirst next hnext hphase
  · unfold finishStep at h
    simp at h
  · unfold finishStep at h
    simp at h

/-- Calls that all end well leave a suited processor, and calls that wait pledge it. -/
theorem makeCalls_owed {calls : List StepCall} {result : ChangeOutcome}
    (hactive : target ≠ .inactive) (hbase : base ≤ p.factory.built) (ho : p.Owed base target calls)
    (h : makeCalls term target calls p = (result, q)) :
    (result = .done (.ok ()) → ∃ pr, q.processor = some pr ∧
      (shouldInstall p.role target = true → base ≤ pr.number)) ∧
    (∀ call awaited rest, result = .held call awaited rest →
      q.Pledged base target awaited rest) := by
  induction calls generalizing p with
  | nil =>
    simp only [makeCalls, Prod.mk.injEq] at h
    obtain ⟨rfl, rfl⟩ := h
    refine ⟨fun _ => ?_, fun _ _ _ hheld => by simp at hheld⟩
    rcases ho.owed with ⟨call, hmem, -⟩ | ⟨-, hsuited⟩
    · simp at hmem
    · exact hsuited
  | cons call rest ih =>
    unfold makeCalls at h
    split at h
    · next s hcall =>
      have hturned := callStep_turned hcall
      obtain ⟨hdone, hheld⟩ := ih (Nat.le_trans hbase hturned.turns.le_built)
        (callStep_owed hactive hbase ho hcall) h
      rw [hturned.steady.role] at hdone
      exact ⟨hdone, hheld⟩
    · simp only [Prod.mk.injEq] at h
      obtain ⟨rfl, rfl⟩ := h
      exact ⟨fun hdone => by simp at hdone, fun _ _ _ hheld => by simp at hheld⟩
    · next awaited s hcall =>
      simp only [Prod.mk.injEq] at h
      obtain ⟨rfl, rfl⟩ := h
      refine ⟨fun hdone => by simp at hdone, fun _ _ _ hheld => ?_⟩
      simp only [ChangeOutcome.held.injEq] at hheld
      obtain ⟨-, rfl, rfl⟩ := hheld
      exact callStep_pledged ho hcall

/-! ## Changes and their ends -/

/-- What became of the change, if it is over. -/
def ChangeOutcome.over : ChangeOutcome → Option (Except LogError Unit)
  | .done outcome => some outcome
  | .held _ _ _ => none

/-- Ticket and target of the change that a move begins or goes on with. -/
def running (p : Partition) : Move → Option (Nat × Role)
  | .request _ target => if p.held.isSome then none else some (p.tickets.length, target)
  | .letGo _ => p.held.map fun change => (change.ticket, change.role)
  | .resume => p.held.map fun change => (change.ticket, change.role)
  | .surround _ => none

/-- The change that a move ends: its target, and its outcome as its ticket tells it. -/
def ended (p : Partition) (move : Move) : Option (Role × Except LogError Unit) :=
  (p.running move).bind fun (ticket, target) =>
    ((p.act move).ticket ticket).outcome.map (target, ·)

theorem tickets_recorded (result : ChangeOutcome) :
    (p.recorded term target result).tickets = p.tickets := by
  unfold recorded
  split <;> rfl

theorem processor_recorded (result : ChangeOutcome) :
    (p.recorded term target result).processor = p.processor := by
  unfold recorded
  split <;> rfl

theorem processor_conclude (ticket : Nat) (result : ChangeOutcome) :
    (conclude ticket term target (result, p)).processor = p.processor := by
  cases result <;> rfl

/-- A ticket that was pending tells what became of the change. -/
theorem ticket_conclude {ticket : Nat} (h : p.tickets[ticket]? = some .pending)
    (result : ChangeOutcome) :
    ((conclude ticket term target (result, p)).ticket ticket).outcome = result.over := by
  cases result with
  | done outcome =>
    unfold conclude Partition.ticket
    rw [List.getD_eq_getElem?_getD, List.getElem?_modify_eq, h]
    rfl
  | held call awaited rest =>
    unfold conclude Partition.ticket
    rw [List.getD_eq_getElem?_getD, h]
    rfl

theorem ended_of_concluded {move : Move} {ticket : Nat} {result : ChangeOutcome}
    (hrunning : p.running move = some (ticket, target))
    (hact : p.act move = conclude ticket term target (result, q))
    (hticket : q.tickets[ticket]? = some .pending) :
    p.ended move = result.over.map (target, ·) := by
  rw [ended, hrunning, Option.bind_some, hact]
  dsimp only
  rw [ticket_conclude hticket]

theorem ended_of_conclude {move : Move} {ticket : Nat} {result : ChangeOutcome}
    (hrunning : p.running move = some (ticket, target))
    (hact : p.act move = conclude ticket term target (result, r.recorded term target result))
    (hticket : r.tickets[ticket]? = some .pending) :
    p.ended move = result.over.map (target, ·) :=
  ended_of_concluded hrunning hact (by rw [tickets_recorded, hticket])

/-- A change that began at `origin`, up to `r`, where it waits, or where it ended with `result`. -/
structure Stretch (stranded : List Nat) (target : Role) (result : ChangeOutcome) (origin : Custody)
    (r : Partition) : Prop where
  settled : origin.Settled r.role stranded
  since : origin.Since target (r.custody result.opening)
  suited : target ≠ .inactive → result = .done (.ok ()) → r.Suited origin.built target
  pledged : target ≠ .inactive → ∀ call awaited rest, result = .held call awaited rest →
    r.Pledged origin.built target awaited rest

variable {stranded : List Nat} {origin : Custody}

theorem Stretch.fits (h : Stretch stranded target (.done (.ok ())) origin r)
    (hactive : target ≠ .inactive) : ∃ pr, r.processor = some pr ∧
      ((pr.number, .ofRole target) ∈ builds r.events ↔ pr.number ∉ stranded) ∧
      (pr.number ∈ stranded → (pr.number, .processing) ∈ builds r.events) := by
  obtain ⟨pr, hpr, hfresh⟩ := h.suited hactive rfl
  exact ⟨pr, hpr, h.settled.fit h.since hpr hactive hfresh,
    fun hmem => h.since.old _ (h.settled.leaders _ hmem)⟩

/-- A change that waits does not look at what else is done. -/
theorem Stretch.of_same {call : StepCall} {awaited : Awaited} {rest : List StepCall}
    (h : Stretch stranded target (.held call awaited rest) origin r) (hrole : q.role = r.role)
    (hcustody : ∀ opening, q.custody opening = r.custody opening) (hsteps : r.StepsAlike q) :
    Stretch stranded target (.held call awaited rest) origin q where
  settled := hrole ▸ h.settled
  since := hcustody _ ▸ h.since
  suited _ hdone := by simp at hdone
  pledged hactive _ _ _ hheld :=
    (h.pledged hactive _ _ _ hheld).of_same (congrArg Custody.processor (hcustody none)) hrole
      hsteps

theorem makeCalls_stretch {calls : List StepCall} {result : ChangeOutcome}
    (hs : origin.Settled p.role stranded) (hsince : origin.Since target (p.custody none))
    (howed : target ≠ .inactive → p.Owed origin.built target calls)
    (h : makeCalls term target calls p = (result, q)) :
    ∃ r, p.Steady r ∧ Stretch stranded target result origin r ∧ (r.custody result.opening).Apart ∧
      q = r.recorded term target result := by
  obtain ⟨r, hturned, rfl⟩ := makeCalls_turned h
  have hrole := hturned.steady.role
  refine ⟨r, hturned.steady, ⟨?_, ?_, ?_, ?_⟩, ?_, rfl⟩
  · rw [hrole]
    exact hs
  · exact hturned.turns.keep Custody.Turn.since hsince
  · intro hactive hdone
    obtain ⟨pr, hpr, hfresh⟩ :=
      (makeCalls_owed hactive hsince.le_built (howed hactive) h).1 hdone
    rw [processor_recorded] at hpr
    exact ⟨pr, hpr, by rw [hrole]; exact hfresh⟩
  · rintro hactive call awaited rest rfl
    exact (makeCalls_owed hactive hsince.le_built (howed hactive) h).2 _ _ _ rfl
  · exact hturned.turns.keep Custody.Turn.apart fun hsome => by simp [custody] at hsome

theorem goOn_stretch {change : HeldChange} {answer : Except LogError Unit}
    (hs : origin.Settled p.role stranded) (hsince : origin.Since change.role (p.custody none))
    (howed : answer = .ok () → change.role ≠ .inactive →
      p.Owed origin.built change.role change.rest) :
    ∃ result r, p.Steady r ∧ Stretch stranded change.role result origin r ∧
      (r.custody result.opening).Apart ∧
      goOn change (answer, p) = conclude change.ticket change.term change.role
        (result, r.recorded change.term change.role result) := by
  cases answer with
  | ok done =>
    generalize hcalls : makeCalls change.term change.role change.rest p = made
    obtain ⟨result, q⟩ := made
    obtain ⟨r, hsteady, hstretch, hapart, rfl⟩ := makeCalls_stretch hs hsince (howed rfl) hcalls
    refine ⟨result, r, hsteady, hstretch, hapart, ?_⟩
    unfold goOn
    dsimp only
    rw [hcalls]
  | error e =>
    refine ⟨.done (.error e), p, .refl p, ⟨hs, hsince, ?_, ?_⟩, ?_, rfl⟩
    · exact fun _ hdone => by simp at hdone
    · exact fun _ _ _ _ hheld => by simp at hheld
    · exact fun hsome => by simp [custody, ChangeOutcome.opening] at hsome

end Partition

/-! ## Runs of changes -/

/-- A partition, how many processors had been built when the change that runs began, and those that
changes to the leader left when they failed. -/
structure RoleRun where
  partition : Partition
  base : Nat := 0
  stranded : List Nat := []

namespace RoleRun

open PartitionLog.Partition

def act (run : RoleRun) (move : Move) : RoleRun :=
  let base := if run.partition.held.isSome then run.base else run.partition.factory.built
  { partition := run.partition.act move
    base := base
    stranded := run.stranded
      ++ Custody.strandedBy base (run.partition.act move).processor (run.partition.ended move) }

def after (run : RoleRun) (moves : List Move) : RoleRun := moves.foldl act run

/-- A change waits that began when `base` processors had been built. -/
structure Busy (run : RoleRun) (change : HeldChange) : Prop where
  pending : run.partition.tickets[change.ticket]? = some .pending
  stretch : ∃ origin : Custody, origin.built = run.base ∧
    Stretch run.stranded change.role (.held change.call change.awaited change.rest) origin
      run.partition

/-- What holds between the moves. -/
structure Sound (run : RoleRun) : Prop where
  steps : .streamProcessor ∈ run.partition.steps
  apart : (run.partition.custody run.partition.opening).Apart
  idle : run.partition.held = none →
    (run.partition.custody none).Settled run.partition.role run.stranded
  busy : ∀ change, run.partition.held = some change → run.Busy change

/-- A move begins a change or goes on with one: it gets as far as `r`, with `result`. -/
structure Carried (run : RoleRun) (move : Move) (ticket term : Nat) (target : Role)
    (result : ChangeOutcome) (r : Partition) : Prop where
  steps : .streamProcessor ∈ r.steps
  apart : (r.custody result.opening).Apart
  pending : r.tickets[ticket]? = some .pending
  stretch : ∃ origin : Custody, origin.built = (run.act move).base ∧
    Stretch run.stranded target result origin r
  concluded : run.partition.act move
    = conclude ticket term target (result, r.recorded term target result)
  ended : run.partition.ended move = result.over.map (target, ·)

/-- A move leaves the change that runs, and what it is about, as they are. -/
structure Quiet (run : RoleRun) (move : Move) (q : Partition) : Prop where
  moved : run.partition.act move = q
  ended : run.partition.ended move = none
  role : q.role = run.partition.role
  held : q.held = run.partition.held
  custody : ∀ opening, q.custody opening = run.partition.custody opening
  steps : run.partition.StepsAlike q
  pending : ∀ n : Nat, run.partition.tickets[n]? = some Completion.pending →
    q.tickets[n]? = some Completion.pending

variable {run : RoleRun} {move : Move} {p q r : Partition} {ticket term : Nat} {target : Role}
  {result : ChangeOutcome}

theorem Quiet.sound (hq : run.Quiet move q) (h : run.Sound) : (run.act move).Sound := by
  have hact : run.act move = ⟨q, if run.partition.held.isSome then run.base else
      run.partition.factory.built, run.stranded⟩ := by
    rw [act, hq.moved, hq.ended]
    simp [Custody.strandedBy]
  have hopening : q.opening = run.partition.opening := by
    unfold opening
    rw [hq.held]
  rw [hact]
  refine ⟨?_, ?_, fun hidle => ?_, fun change hheld => ?_⟩
  · exact hq.steps.mem h.steps
  · dsimp only
    rw [hopening, hq.custody]
    exact h.apart
  · dsimp only
    rw [hq.custody, hq.role]
    exact h.idle (hq.held ▸ hidle)
  · -- while a change runs, the base is kept
    replace hheld : run.partition.held = some change := hq.held ▸ hheld
    obtain ⟨hpending, origin, hbase, hstretch⟩ := h.busy change hheld
    refine ⟨hq.pending _ hpending, origin, by simp [hheld, hbase], ?_⟩
    exact hstretch.of_same hq.role hq.custody hq.steps

theorem Carried.sound (hc : run.Carried move ticket term target result r) :
    (run.act move).Sound := by
  obtain ⟨origin, hbase, hstretch⟩ := hc.stretch
  have hprocessor : (run.partition.act move).processor = r.processor := by
    rw [hc.concluded, processor_conclude, processor_recorded]
  have hact : run.act move = ⟨conclude ticket term target (result, r.recorded term target result),
      origin.built, run.stranded ++
        Custody.strandedBy origin.built r.processor (result.over.map (target, ·))⟩ := by
    rw [hbase, ← hc.ended, ← hprocessor, ← hc.concluded]
    rfl
  rw [hact]
  -- the change failed, or it succeeded, or it waits
  rcases result with ⟨e | done⟩ | ⟨call, awaited, rest⟩
  · refine ⟨hc.steps, hc.apart, fun _ => ?_, fun _ hheld => by cases hheld⟩
    exact hstretch.settled.failed hstretch.since rfl e
  · refine ⟨hc.steps, hc.apart, fun _ => ?_, fun _ hheld => by cases hheld⟩
    have hnone : Custody.strandedBy origin.built r.processor (some (target, .ok ())) = [] := by
      cases target <;> rfl
    simp only [ChangeOutcome.over, Option.map_some, hnone, List.append_nil]
    refine hstretch.settled.succeeded hstretch.since rfl fun hactive pr hpr hinstall => ?_
    obtain ⟨held, hheld, hfresh⟩ := hstretch.suited hactive rfl
    obtain rfl := Option.some.inj (hheld.symm.trans hpr)
    exact hfresh hinstall
  · refine ⟨hc.steps, hc.apart, fun hidle => by simp [conclude] at hidle, fun change hheld => ?_⟩
    obtain rfl := Option.some.inj hheld
    have hnone : run.stranded ++ Custody.strandedBy origin.built r.processor none = run.stranded :=
      List.append_nil _
    simp only [ChangeOutcome.over, Option.map_none, hnone]
    refine ⟨hc.pending, origin, rfl, ?_⟩
    exact hstretch.of_same rfl (fun _ => rfl) fun _ => Iff.rfl

/-! ### What a move does -/

theorem Sound.request_cases (h : run.Sound) (term : Nat) (target : Role) :
    (∃ q, run.Quiet (.request term target) q) ∨ ∃ ticket result r,
      run.Carried (.request term target) ticket term target result r := by
  by_cases hidle : run.partition.held = none
  · right
    obtain ⟨p, hp⟩ : ∃ p : Partition, p =
      { run.partition with tickets := run.partition.tickets ++ [Completion.pending] } := ⟨_, rfl⟩
    have hact := requestRole_idle hidle term target
    rw [← hp] at hact
    generalize hcalls : makeCalls term target (plannedCalls run.partition.steps.length) p
      = made at hact
    obtain ⟨result, q⟩ := made
    have howed : p.Owed run.partition.factory.built target
        (plannedCalls run.partition.steps.length) := by
      subst hp
      exact owed_plannedCalls _ _ h.steps
    have hsettled : (run.partition.custody none).Settled p.role run.stranded := by
      rw [hp]
      exact h.idle hidle
    have hsince : (run.partition.custody none).Since target (p.custody none) := by
      rw [hp]
      exact .refl target hsettled.numbered rfl
    obtain ⟨r, hsteady, hstretch, hapart, rfl⟩ :=
      makeCalls_stretch hsettled hsince (fun _ => howed) hcalls
    have hpending : r.tickets[run.partition.tickets.length]? = some .pending := by
      rw [hsteady.tickets, hp]
      simp
    refine ⟨_, result, r, hsteady.steps.mem (by rw [hp]; exact h.steps), hapart, hpending,
      ⟨_, ?_, hstretch⟩, hact, ended_of_conclude ?_ hact hpending⟩
    · simp [RoleRun.act, hidle, custody]
    · simp [running, hidle]
  · left
    have hact := requestRole_busy hidle term target
    obtain ⟨change, hheld⟩ := Option.ne_none_iff_exists'.1 hidle
    refine ⟨_, hact, ?_, rfl, rfl, fun _ => rfl, fun _ => Iff.rfl, fun n hn => ?_⟩
    · simp [ended, running, hheld]
    · have hlt := (List.getElem?_eq_some_iff.1 hn).1
      rw [List.getElem?_append_left hlt]
      exact hn

theorem Busy.carried {change : HeldChange} {answer : Except LogError Unit} {origin : Custody}
    (hb : run.Busy change) (hsteps : .streamProcessor ∈ run.partition.steps)
    (hheld : run.partition.held = some change)
    (hrunning : run.partition.running move = some (change.ticket, change.role))
    (hact : run.partition.act move = goOn change (answer, q)) (hq : run.partition.Steady q)
    (hbase : origin.built = run.base) (hs : origin.Settled run.partition.role run.stranded)
    (hsince : origin.Since change.role (q.custody none))
    (howed : answer = .ok () → change.role ≠ .inactive →
      q.Owed origin.built change.role change.rest) :
    ∃ result r, run.Carried move change.ticket change.term change.role result r := by
  obtain ⟨result, r, hsteady, hstretch, hapart, hgoOn⟩ :=
    goOn_stretch (hq.role ▸ hs) hsince howed
  rw [hgoOn] at hact
  have hpending : r.tickets[change.ticket]? = some .pending := by
    rw [hsteady.tickets, hq.tickets]
    exact hb.pending
  refine ⟨result, r, (hq.trans hsteady).steps.mem hsteps, hapart, hpending,
    ⟨origin, ?_, hstretch⟩, hact, ended_of_conclude hrunning hact hpending⟩
  simp [RoleRun.act, hheld, hbase]

/-- The change does not wait for this. -/
theorem quiet_of_same (hact : run.partition.act move = run.partition)
    (hended : run.partition.ended move = none) : run.Quiet move run.partition :=
  ⟨hact, hended, rfl, rfl, fun _ => rfl, fun _ => Iff.rfl, fun _ => id⟩

/-- A ticket of a change that still waits is pending. -/
theorem Sound.ended_of_same (h : run.Sound) (hact : run.partition.act move = run.partition)
    (hrunning : run.partition.running move
      = run.partition.held.map fun change => (change.ticket, change.role)) :
    run.partition.ended move = none := by
  cases hheld : run.partition.held with
  | none => simp [ended, hrunning, hheld]
  | some change =>
    rw [ended, hrunning, hheld, Option.map_some, Option.bind_some, hact]
    dsimp only
    rw [Partition.ticket, List.getD_eq_getElem?_getD, (h.busy change hheld).pending]
    rfl

theorem Sound.letGo_cases (h : run.Sound) (opened : Except LogError Unit) :
    (∃ q, run.Quiet (.letGo opened) q) ∨ ∃ ticket term target result r,
      run.Carried (.letGo opened) ticket term target result r := by
  cases hheld : run.partition.held with
  | none =>
    have hact : run.partition.act (.letGo opened) = run.partition := by
      simp [Partition.act, letGo, hheld]
    exact .inl ⟨_, quiet_of_same hact (h.ended_of_same hact rfl)⟩
  | some change =>
    cases hawaited : change.awaited with
    | stream ticket =>
      have hact : run.partition.act (.letGo opened) = run.partition := by
        simp [Partition.act, letGo, hheld, hawaited]
      exact .inl ⟨_, quiet_of_same hact (h.ended_of_same hact rfl)⟩
    | processor pr =>
      right
      have hbusy := h.busy change hheld
      obtain ⟨origin, hbase, hstretch⟩ := hbusy.stretch
      have hopening : run.partition.opening = some pr := by
        rw [opening_of_held hheld, hawaited]
        rfl
      have hnone : run.partition.processor = none := h.apart (by rw [hopening]; rfl)
      generalize hend : (endInstall change.term change.role pr opened).run run.partition = made
      obtain ⟨answer, q⟩ := made
      obtain ⟨hturned, hinstalled⟩ := endInstall_turned hnone hend
      have hsince := hstretch.since
      have hpledged := fun hactive => hstretch.pledged hactive _ _ _ rfl
      simp only [ChangeOutcome.opening, hawaited, Awaited.opening, Pledged] at hsince hpledged
      have hact : run.partition.act (.letGo opened) = goOn change (answer, q) := by
        simp [Partition.act, letGo, hheld, hawaited, hend]
      refine ⟨_, _, _, hbusy.carried h.steps hheld (by simp [running, hheld]) hact hturned.steady
        hbase hstretch.settled (hturned.turns.keep Custody.Turn.since hsince) ?_⟩
      rintro hok hactive
      have hinstalls := hpledged hactive
      refine ⟨?_, .inr ⟨hinstalls, pr, hinstalled hok, fun _ => (hsince.opening pr rfl).1⟩⟩
      exact List.pairwise_of_forall_mem_list fun _ _ next hnext _ => hinstalls next hnext

theorem Sound.resume_cases (h : run.Sound) :
    (∃ q, run.Quiet .resume q) ∨ ∃ ticket term target result r,
      run.Carried .resume ticket term target result r := by
  have hquiet : run.partition.resume = run.partition → ∃ q, run.Quiet .resume q :=
    fun hact => ⟨_, quiet_of_same hact (h.ended_of_same hact rfl)⟩
  cases hheld : run.partition.held with
  | none => exact .inl (hquiet (by simp [resume, hheld]))
  | some change =>
    cases hawaited : change.awaited with
    | processor pr =>
      refine .inl (hquiet ?_)
      unfold resume
      split
      · next other _ hother _ =>
        obtain rfl := Option.some.inj (hheld.symm.trans hother)
        rw [hawaited]
      · rfl
    | stream waiting =>
      cases houtcome : run.partition.stream.bind fun l => (l.ticket waiting).outcome with
      | none =>
        refine .inl (hquiet ?_)
        unfold resume
        split
        · next other l hother hstream =>
          obtain rfl := Option.some.inj (hheld.symm.trans hother)
          rw [hstream, Option.bind_some] at houtcome
          rw [hawaited]
          dsimp only
          rw [houtcome]
        · rfl
      | some outcome =>
        right
        obtain ⟨l, hstream, hdone⟩ := Option.bind_eq_some_iff.1 houtcome
        have hbusy := h.busy change hheld
        obtain ⟨origin, hbase, hstretch⟩ := hbusy.stretch
        generalize hend : (endStream change.call change.term outcome).run run.partition = made
        obtain ⟨answer, q⟩ := made
        have haside := endStream_aside hend
        have hact : run.partition.act .resume = goOn change (answer, q) := by
          simp [Partition.act, resume, hheld, hstream, hawaited, hdone, hend]
        have hsince := hstretch.since
        have hpledged := fun hactive => hstretch.pledged hactive _ _ _ rfl
        simp only [ChangeOutcome.opening, hawaited, Awaited.opening, Pledged] at hsince hpledged
        refine ⟨_, _, _, hbusy.carried h.steps hheld (by simp [running, hheld]) hact haside.steady
          hbase hstretch.settled ((haside.turned none).turns.keep Custody.Turn.since hsince) ?_⟩
        intro _ hactive
        exact (hpledged hactive).of_same haside.processor haside.steady.role haside.steady.steps

theorem surround_quiet (run : RoleRun) (s : Surroundings) :
    run.Quiet (.surround s) (run.partition.surround s) :=
  ⟨rfl, rfl, rfl, rfl, fun _ => rfl, (run.partition.surround_steady s).steps, fun _ => id⟩

theorem Sound.act_cases (h : run.Sound) (move : Move) :
    (∃ q, run.Quiet move q) ∨ ∃ ticket term target result r,
      run.Carried move ticket term target result r := by
  cases move with
  | request term target =>
    exact (h.request_cases term target).imp id fun ⟨ticket, hrest⟩ => ⟨ticket, term, target, hrest⟩
  | letGo opened => exact h.letGo_cases opened
  | resume => exact h.resume_cases
  | surround s => exact .inl ⟨_, run.surround_quiet s⟩

theorem Sound.act (h : run.Sound) (move : Move) : (run.act move).Sound := by
  rcases h.act_cases move with ⟨q, hquiet⟩ | ⟨ticket, term, target, result, r, hcarried⟩
  · exact hquiet.sound h
  · exact hcarried.sound

theorem Sound.after (h : run.Sound) (moves : List Move) : (run.after moves).Sound := by
  induction moves generalizing run with
  | nil => exact h
  | cons move rest ih => exact ih (h.act move)

theorem sound_of_fresh (h : p.Fresh) (hsteps : .streamProcessor ∈ p.steps) :
    Sound { partition := p } where
  steps := hsteps
  apart := fun ho => by simp [custody, h.opening] at ho
  idle _ :=
    { numbered := by simp [Custody.Numbered, custody, h.events, h.built, builds]
      idle := rfl
      below := fun pr hpr => by simp [custody, h.processor] at hpr
      leaders := by simp
      replays := fun _ pr hpr => by simp [custody, h.processor] at hpr }
  busy change hheld := by simp [h.held] at hheld

theorem partition_after (run : RoleRun) (moves : List Move) :
    (run.after moves).partition = run.partition.after moves := by
  induction moves generalizing run with
  | nil => rfl
  | cons move rest ih => exact ih (run.act move)

end RoleRun

namespace Partition

/-- The processors that changes to the leader which failed built and left behind. -/
def stranded (p : Partition) (moves : List Move) : List Nat :=
  (RoleRun.after { partition := p } moves).stranded

/-- A change to an active role that succeeds leaves a processor. It was built for the role, unless
it is left from a change to the leader that failed: then it processes, whatever the role. -/
theorem processor_fits (p : Partition) (moves : List Move) (move : Move) (target : Role)
    (hfresh : p.Fresh) (hstep : .streamProcessor ∈ p.steps) (hactive : target ≠ .inactive)
    (hended : (p.after moves).ended move = some (target, .ok ())) {q : Partition}
    (hq : q = (p.after moves).act move) :
    q.role = some target ∧ ∃ pr, q.processor = some pr ∧
      ((pr.number, .ofRole target) ∈ builds q.events ↔ pr.number ∉ p.stranded moves) ∧
      (pr.number ∈ p.stranded moves → (pr.number, .processing) ∈ builds q.events) := by
  have hsound := (RoleRun.sound_of_fresh hfresh hstep).after moves
  have hafter := RoleRun.partition_after { partition := p } moves
  rw [← hafter] at hended hq
  subst hq
  rcases hsound.act_cases move with ⟨q, hquiet⟩ | ⟨ticket, term, role, result, r, hcarried⟩
  · simp [hquiet.ended] at hended
  · obtain ⟨origin, -, hstretch⟩ := hcarried.stretch
    rw [hcarried.ended] at hended
    rw [hcarried.concluded]
    rcases result with ⟨e | done⟩ | ⟨call, awaited, rest⟩
    · simp [ChangeOutcome.over] at hended
    · simp only [ChangeOutcome.over, Option.map_some, Option.some.injEq, Prod.mk.injEq] at hended
      obtain ⟨rfl, -⟩ := hended
      exact ⟨rfl, hstretch.fits hactive⟩
    · simp [ChangeOutcome.over] at hended

/-- The processor is installed before a recorder is called. -/
def staged : Partition where
  id := 1
  steps := [.streamProcessor, .recorder "late" false false]

def lateFails (fails : Bool) : Move :=
  .surround ⟨true, none, {}, fun _ => some {}, fun _ phase => fails && phase == .install⟩

theorem processor_fits_retried :
    staged.Fresh ∧ ∃ moves, moves = [lateFails true, .request 1 .leader, lateFails false] ∧
      staged.stranded moves = [0] ∧
      (staged.after moves).ended (.request 2 .follower) = some (.follower, .ok ()) ∧
      ∃ q, q = (staged.after moves).act (.request 2 .follower) ∧ q.role = some .follower ∧
        ∃ pr, q.processor = some pr ∧ pr.number = 1 ∧ (1, .replay) ∈ builds q.events := by
  have hfresh : staged.Fresh := ⟨rfl, rfl, rfl, rfl⟩
  refine ⟨hfresh, _, rfl, by decide +kernel, rfl, _, rfl, ?_⟩
  obtain ⟨hrole, pr, hpr, hfits, -⟩ := processor_fits staged
    [lateFails true, .request 1 .leader, lateFails false] (.request 2 .follower) .follower hfresh
    (by simp [staged]) (by simp) rfl rfl
  have hnumber : pr.number = 1 := by
    have hheld : ((staged.after [lateFails true, .request 1 .leader, lateFails false]).act
        (.request 2 .follower)).processor = some ⟨1, {}⟩ := by decide +kernel
    rw [hheld] at hpr
    exact Option.some.inj hpr ▸ rfl
  rw [hnumber] at hfits
  exact ⟨hrole, pr, hpr, hnumber, hfits.2 (by decide +kernel)⟩

/-- The leader's processor stays when the candidate becomes a follower. -/
theorem processor_misfits_follower :
    staged.Fresh ∧ .streamProcessor ∈ staged.steps ∧ ∃ moves,
      moves = [.request 1 .candidate, lateFails true, .request 2 .leader, lateFails false] ∧
      (staged.after moves).ended (.request 3 .follower) = some (.follower, .ok ()) ∧
      ∃ q, q = (staged.after moves).act (.request 3 .follower) ∧ q.role = some .follower ∧
        ∃ pr, q.processor = some pr ∧ (pr.number, .ofRole .follower) ∉ builds q.events ∧
          (pr.number, .processing) ∈ builds q.events := by
  refine ⟨⟨rfl, rfl, rfl, rfl⟩, by simp [staged], _, rfl, rfl, _, rfl, rfl, ⟨1, {}⟩, ?_⟩
  decide +kernel

end Partition

end PartitionLog
