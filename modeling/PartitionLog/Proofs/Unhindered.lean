import PartitionLog.Proofs.LeadingCommands

/-!
# Commands that nothing hinders

A client alone asks for a command and lets it be carried out, seven steps at most (`Run.alone`). If
there is nothing else to do and the storage is not gated, then the command does what it does to a
stream that nobody else uses (`Run.after_alone`): each step on the way goes on with it (`Heading`),
leaves the gate as it is (`Storage.SameGate`) and writes nothing into the ledger.
-/

namespace PartitionLog

/-! ## Gates -/

namespace Storage

variable {α : Type}

def SameGate (s t : Storage) : Prop := t.isGated = s.isGated

instance : IsPreorder Storage SameGate where
  refl _ := rfl
  trans _ _ _ h h' := h'.trans h

theorem sameGate_of_call {call : StorageCall} {x : Attempt Storage α} (hx : x.Leads SameRules) :
    Attempt.Leads SameGate (do allow call; x) := by
  refine .bind (fun s => ?_) fun _ s => (hx s).gate
  unfold Attempt.run allow
  dsimp only
  split
  · rfl
  · rfl

theorem atStorage_sameGate : IndexedLog.AtStorage SameGate where
  openUp := sameGate_of_call openMedium_rules
  close := sameGate_of_call closeMedium_rules
  truncate address := sameGate_of_call (truncateMedium_rules address)
  endAddress := sameGate_of_call endMedium_rules
  read h := h.gate
  save _ _ := rfl

end Storage

namespace Appender

/-- The gates of the storages are the same. -/
def SameGate (a b : Appender) : Prop := a.log.storage.SameGate b.log.storage

instance : IsPreorder Appender SameGate where
  refl _ := rfl
  trans _ _ _ h h' := h'.trans h

theorem atCycle_sameGate : AtCycle SameGate where
  append block a := Storage.sameGate_of_call (Storage.appendMedium_rules block) a.log.storage
  flush a := Storage.sameGate_of_call Storage.flushMedium_rules a.log.storage
  truncate address a := Storage.atStorage_sameGate.truncate address a.log.storage
  note _ _ _ _ := congrArg Storage.isGated (IndexedLog.noteBlock_leaves (Prod.eta _).symm).1
  count _ _ := rfl
  mark _ _ := rfl
  move _ _ := rfl
  free _ _ := rfl

theorem atWork_sameGate : AtWork SameGate where
  once := atCycle_sameGate.drainOnce
  flush := atCycle_sameGate.flush
  halt _ _ := rfl
  look _ := rfl
  answer _ := rfl
  rest _ _ := rfl

end Appender

namespace Lifecycle

/-! ## Carrying out one command -/

/-- There is nothing to do. -/
structure Idle (l : Lifecycle) : Prop where
  current : l.current = none
  queue : l.queue = []
  pendingOpen : l.pendingOpen = none

/-- How far a command has come that was asked for when the stream was as in `s`. -/
inductive OnTheWay (command : Command) (s : LogStream) (l : Lifecycle) : Prop where
  | asked {ticket : Nat} (hc : l.current = none) (hq : l.queue = [⟨ticket, command⟩])
    (hp : l.pendingOpen.isSome → command = .openUp) (hs : l.stream = s)
  | atHand {ticket : Nat} {progress : Progress}
    (hc : l.current = some (⟨ticket, command⟩, progress)) (hq : l.queue = [])
    (hp : l.pendingOpen.isSome → command = .openUp ∧ ∀ outcome, progress ≠ .released outcome)
    (hr : remainder ⟨ticket, command⟩ progress l.stream = (LogStream.perform command).run s)
  | done (h : l.Idle) (hs : l.stream = ((LogStream.perform command).run s).2)

/-- The command is all that there is to do, and nothing holds it up. -/
structure Heading (command : Command) (s : LogStream) (l : Lifecycle) : Prop where
  way : l.OnTheWay command s
  ungated : l.stream.storage.isGated = false

variable {command : Command} {s : LogStream} {l next : Lifecycle}

/-- A command that is queued when there is nothing to do. -/
theorem Idle.queued (h : l.Idle) (command : Command) {pending : Option Nat}
    (hp : pending.isSome → command = .openUp) : OnTheWay command l.stream
      { l with
        queue := l.queue ++ [⟨l.tickets.length, command⟩]
        pendingOpen := pending
        tickets := l.tickets ++ [.pending] } :=
  .asked h.current (by rw [h.queue]; rfl) hp rfl

theorem Idle.request (h : l.Idle) (hgate : l.stream.storage.isGated = false) (command : Command) :
    (l.request command).2.Heading command l.stream := by
  have hpending := h.pendingOpen
  have hnone (command : Command) : l.pendingOpen.isSome → command = .openUp := by simp [hpending]
  cases command with
  | openUp =>
    show l.requestOpen.2.Heading .openUp l.stream
    unfold requestOpen
    rw [hpending]
    exact ⟨h.queued .openUp fun _ => rfl, hgate⟩
  | close =>
    show l.requestClose.2.Heading .close l.stream
    unfold requestClose
    rw [hpending, if_neg (by simp)]
    split
    · next hclosed =>
      refine ⟨.done ⟨h.current, h.queue, hpending⟩ ?_, hgate⟩
      show l.stream = l.stream.closeStream.2
      unfold LogStream.closeStream
      rw [if_pos hclosed]
    · exact ⟨h.queued .close (hnone .close), hgate⟩
  | startAppender => exact ⟨h.queued .startAppender (hnone _), hgate⟩
  | stopAppender => exact ⟨h.queued .stopAppender (hnone _), hgate⟩
  | truncate position => exact ⟨h.queued (.truncate position) (hnone _), hgate⟩

/-- Working on a command does not release it. -/
theorem Worked.not_released {job : Job} {s t : LogStream} {before after : Progress}
    (h : Worked job s before after t) (outcome : Except LogError Unit) :
    after ≠ .released outcome := by
  cases h <;> simp

/-- A step goes on with the command. -/
theorem OnTheWay.step (h : l.OnTheWay command s) (hnext : l.Step next) :
    next.OnTheWay command s := by
  cases h with
  | asked hc hq hp hs =>
    cases hnext with
    | take _ hq' =>
      obtain ⟨rfl, rfl⟩ := List.cons.inj (hq'.symm.trans hq)
      exact .atHand rfl rfl (fun hsome => ⟨hp hsome, by simp⟩) (by rw [← hs]; rfl)
    | work hc' => simp [hc] at hc'
    | release hc' => simp [hc] at hc'
    | finish hc' => simp [hc] at hc'
  | @atHand ticket progress hc hq hp hr =>
    cases hnext with
    | take hc' => simp [hc] at hc'
    | work hc' hw =>
      obtain ⟨rfl, rfl⟩ := Prod.mk.inj (Option.some.inj (hc.symm.trans hc'))
      exact .atHand rfl hq (fun hsome => ⟨(hp hsome).1, hw.not_released⟩) (hw.remainder_eq.trans hr)
    | release hc' =>
      obtain ⟨rfl, rfl⟩ := Prod.mk.inj (Option.some.inj (hc.symm.trans hc'))
      exact .atHand rfl hq (by simp) hr
    | @finish job outcome hc' =>
      obtain ⟨rfl, hended⟩ : job = ⟨ticket, command⟩ ∧
          (progress = .handled outcome ∧ command ≠ .openUp ∨ progress = .released outcome) := by
        rcases hc' with ⟨hc', hother⟩ | hc'
        · obtain ⟨rfl, rfl⟩ := Prod.mk.inj (Option.some.inj (hc.symm.trans hc'))
          exact ⟨rfl, .inl ⟨rfl, hother⟩⟩
        · obtain ⟨rfl, rfl⟩ := Prod.mk.inj (Option.some.inj (hc.symm.trans hc'))
          exact ⟨rfl, .inr rfl⟩
      have hnone : l.pendingOpen = none := by
        rw [← Option.not_isSome_iff_eq_none]
        intro hsome
        obtain ⟨hopen, hnot⟩ := hp hsome
        rcases hended with ⟨-, hother⟩ | hreleased
        · exact hother hopen
        · exact hnot outcome hreleased
      refine .done ⟨rfl, hq, hnone⟩ ?_
      rw [← hr]
      rcases hended with ⟨rfl, -⟩ | rfl
      · rfl
      · rfl
  | done hidle =>
    have hcurrent := hidle.current
    have hqueue := hidle.queue
    cases hnext with
    | take _ hq' => simp [hqueue] at hq'
    | work hc' => simp [hcurrent] at hc'
    | release hc' => simp [hcurrent] at hc'
    | finish hc' => simp [hcurrent] at hc'

theorem OnTheWay.stepsLeft_le (h : l.OnTheWay command s) : l.stepsLeft ≤ 7 := by
  cases h with
  | asked hc hq => simp [stepsLeft, hc, hq]
  | @atHand ticket progress hc hq =>
    have hrank : progress.rank ≤ 6 := by cases progress <;> simp [Progress.rank]
    simp only [stepsLeft, hc, hq, List.length_nil, Option.map_some, Option.getD_some]
    omega
  | done hidle => simp [stepsLeft, hidle.current, hidle.queue]

theorem Heading.advance {patient : Bool} (h : l.Heading command s)
    (hnext : l.advance patient = some next) : next.Heading command s where
  way := h.way.step (advance_cases hnext)
  ungated :=
    (advance_leads (.of_storage Storage.atStorage_sameGate) Appender.atWork_sameGate.stop hnext :
      Appender.SameGate _ _).trans h.ungated

/-- Where there is nothing left to do, the command has done what it does. -/
theorem Heading.ends (h : l.Heading command s) (hnone : l.advance false = none) :
    l.Idle ∧ l.stream = ((LogStream.perform command).run s).2 := by
  obtain ⟨hcurrent, hqueue⟩ := idle_of_advance_eq_none h.ungated hnone
  cases h.way with
  | asked _ hq => simp [hqueue] at hq
  | atHand hc => simp [hcurrent] at hc
  | done hidle hs => exact ⟨hidle, hs⟩

end Lifecycle

/-! ## Runs -/

namespace Run

/-- What a client does who is alone: ask for a command, and let it be carried out. -/
def alone (command : Command) : List Action :=
  .request command :: List.replicate 7 (.advance false)

/-- From `u` to `v` a command was asked for and maybe carried out, and nothing else was done. -/
structure Underway (command : Command) (u v : Run) : Prop where
  heading : v.lifecycle.Heading command u.stream
  held : v.held = u.held
  settled : v.settled = u.settled
  claims : v.claims = u.claims

variable {command : Command} {u v : Run}

/-- Only a truncation cuts. -/
theorem cutAt_of_heading {l next : Lifecycle} {s : LogStream} (h : l.Heading command s)
    (hcut : ∀ position, command ≠ .truncate position) : l.cutAt next = none := by
  unfold Lifecycle.cutAt
  split
  · next position _ hc _ =>
    cases h.way with
    | asked hc' => simp [hc'] at hc
    | atHand hc' =>
      rw [hc', Option.some.injEq, Prod.mk.injEq, Job.mk.injEq] at hc
      exact absurd hc.1.2 (hcut position)
    | done hidle => simp [hidle.current] at hc
  · rfl

theorem Underway.act (h : Underway command u v) (hcut : ∀ position, command ≠ .truncate position) :
    Underway command u (v.act (.advance false)) ∧
      (v.act (.advance false)).lifecycle.stepsLeft ≤ v.lifecycle.stepsLeft - 1 := by
  cases hnext : v.lifecycle.advance false with
  | none =>
    have hact : v.act (.advance false) = v := by simp only [Run.act, hnext]
    obtain ⟨hidle, -⟩ := h.heading.ends hnext
    rw [hact]
    refine ⟨h, ?_⟩
    simp [Lifecycle.stepsLeft, hidle.current, hidle.queue]
  | some next =>
    have hact : v.act (.advance false) = { v with lifecycle := next } := by
      simp only [Run.act, hnext, cutAt_of_heading h.heading hcut]
    have hless := Lifecycle.stepsLeft_advance hnext
    rw [hact]
    exact ⟨⟨h.heading.advance hnext, h.held, h.settled, h.claims⟩, by dsimp only; omega⟩

theorem Underway.after (h : Underway command u v) (hcut : ∀ position, command ≠ .truncate position)
    (n : Nat) : Underway command u (v.after (List.replicate n (.advance false))) ∧
      (v.after (List.replicate n (.advance false))).lifecycle.stepsLeft
        ≤ v.lifecycle.stepsLeft - n := by
  induction n generalizing v with
  | zero => exact ⟨h, Nat.le_refl _⟩
  | succ n ih =>
    obtain ⟨⟨hheading, hheld, hsettled, hclaims⟩, hless⟩ := h.act hcut
    have hstep : Underway command u (v.step (.advance false)) := ⟨hheading, hheld, hsettled, hclaims⟩
    obtain ⟨hafter, hleft⟩ := ih hstep
    refine ⟨hafter, Nat.le_trans hleft ?_⟩
    show (v.act (.advance false)).lifecycle.stepsLeft - n ≤ _
    omega

variable (hidle : u.lifecycle.Idle) (hgate : u.stream.storage.isGated = false)
  (hcut : ∀ position, command ≠ .truncate position)
include hidle hgate hcut

theorem underway_alone (n : Nat) :
    Underway command u (u.after (.request command :: List.replicate n (.advance false))) ∧
      (u.after (.request command :: List.replicate n (.advance false))).lifecycle.stepsLeft
        ≤ 7 - n := by
  have hasked : Underway command u (u.step (.request command)) :=
    ⟨hidle.request hgate command, rfl, rfl, rfl⟩
  obtain ⟨hafter, hleft⟩ := hasked.after hcut n
  have hseven := hasked.heading.way.stepsLeft_le
  exact ⟨hafter, Nat.le_trans hleft (by omega)⟩

/-- A command of a client who is alone leaves the stream as it does where nobody else uses it. -/
theorem after_alone : (u.after (alone command)).lifecycle.Idle ∧
    (u.after (alone command)).stream = ((LogStream.perform command).run u.stream).2 ∧
    Underway command u (u.after (alone command)) := by
  obtain ⟨hafter, hleft⟩ := underway_alone hidle hgate hcut 7
  have hnone : (u.after (alone command)).lifecycle.advance false = none := by
    rw [Option.eq_none_iff_forall_not_mem]
    intro next hnext
    have hless := Lifecycle.stepsLeft_advance hnext
    have hzero : (u.after (alone command)).lifecycle.stepsLeft ≤ 7 - 7 := hleft
    omega
  obtain ⟨hdone, hstream⟩ := hafter.heading.ends hnone
  exact ⟨hdone, hstream, hafter⟩

end Run

end PartitionLog
