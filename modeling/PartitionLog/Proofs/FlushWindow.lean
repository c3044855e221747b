import Mathlib.Data.List.Induction
import PartitionLog.Proofs.AppenderRuns

/-!
# The window of unflushed blocks

A `Backlog` follows an appender, cycle by cycle also where it drains all it can, and keeps the places of
the blocks in storage that were appended after the last flush that succeeded. It looks at the storage
alone; the appender has a count of its own, which is raised before a flush, stays raised if the block
is taken back, and is not reset by the last flush. All the same that count never falls below the number
of these blocks (`Bounded`), so after a cycle that succeeds there are fewer of them than make a flush
due (`few_unflushed`).
-/

namespace PartitionLog

/-- The number of unflushed blocks that makes a flush due. -/
def SyncStrategy.window : SyncStrategy → Nat
  | .everyBlock => 1
  | .everyBlocks count => count

namespace Appender

variable {a b c : Appender}

theorem lt_window_of_not_due {sync : SyncStrategy} {n : Nat} (h : flushDue sync n = false) :
    n < sync.window ∧ sync ≠ .everyBlock := by
  cases sync with
  | everyBlock => simp [flushDue] at h
  | everyBlocks count =>
    simp only [flushDue, decide_eq_false_iff_not] at h
    exact ⟨by simp only [SyncStrategy.window]; omega, by simp⟩

/-! ## One cycle -/

/-- On the way from `a` to `b`, where the storage was flushed at most once, a flush succeeded. -/
def Flushed (a b : Appender) : Prop :=
  (a.log.storage.faults .flush).failsNow = false ∧ a.log.storage.isOpen = true ∧
    (b.log.storage.faults .flush).used = (a.log.storage.faults .flush).used + 1

instance (a b : Appender) : Decidable (Flushed a b) := by
  unfold Flushed; infer_instance

/-- After a block was stored all is flushed, or the block is counted and no flush is due. -/
def Counts (a b : Appender) : Prop :=
  Flushed a b ∨ (b.unflushed = a.unflushed + 1 ∧ b.unflushed < a.sync.window)

theorem Counts.congr (h : Counts a b) (hstorage : c.log.storage = b.log.storage)
    (hunflushed : c.unflushed = b.unflushed) : Counts a c := by
  unfold Counts Flushed at *
  rwa [hstorage, hunflushed]

theorem le_counted (a : Appender) : a.unflushed ≤ a.counted := by
  unfold counted
  split <;> omega

theorem settleBlock_counts (h : settleBlock.run a = (.ok (), b)) : Counts a b := by
  obtain ⟨hdue, -, rfl⟩ | ⟨-, t, ht, ⟨-, rfl⟩ | ⟨e, he, -⟩⟩ := settleBlock_cases h
  · obtain ⟨hlt, hne⟩ := lt_window_of_not_due hdue
    exact .inr ⟨by simp [counted, hne], hlt⟩
  · obtain ⟨hpasses, hopen⟩ := Storage.flush_ok ht
    refine .inl ⟨hpasses, hopen, ?_⟩
    show (t.faults .flush).used = _
    rw [Storage.flush_faults ht]
    simp [FaultPlan.set, Schedule.next]
  · simp at he

theorem storeBlock_counts {block : Bytes} {r : Except LogError Nat}
    (h : (storeBlock block).run a = (r, b)) :
    match r with
    | .ok _ => Counts a b
    | .error _ => a.unflushed ≤ b.unflushed := by
  obtain ⟨e, cause, t, -, rfl, rfl⟩ | ⟨address, t, ht, ⟨hsettle, rfl⟩ | ⟨cause, c, e, hsettle, hroll, rfl⟩⟩ :=
    storeBlock_cases h
  · exact Nat.le_refl _
  · -- an append is no flush, and leaves the storage open
    have hplan : t.faults .flush = a.log.storage.faults .flush := by
      rw [Storage.append_faults ht]
      rfl
    have hopen : t.isOpen = a.log.storage.isOpen := (Storage.Confines.append block |>.run ht).isOpen
    have hcounts := settleBlock_counts hsettle
    unfold Counts Flushed at hcounts ⊢
    rwa [show (a.withStorage t).log.storage = t from rfl, hplan, hopen] at hcounts
  · have hcounted := (a.withStorage t).le_counted
    obtain ⟨-, hr, -⟩ | ⟨-, u, -, ⟨hr, -⟩ | ⟨e', -, rfl⟩⟩ := settleBlock_cases hsettle
    · simp at hr
    · simp at hr
    · obtain ⟨-, v, -, ⟨-, rfl⟩ | ⟨-, -, rfl⟩⟩ := rollBack_spec hroll
      · exact hcounted
      · exact hcounted

/-- What a cycle can do to the blocks in storage. -/
inductive Cycled (a b : Appender) : Prop where
  /-- None was left there. -/
  | undone (shorter : b.stored.length ≤ a.stored.length) (unflushed : a.unflushed ≤ b.unflushed)
      (stale : b.staleBlock = a.staleBlock)
  | stale (unflushed : a.unflushed ≤ b.unflushed) (stale : b.staleBlock = some a.stored.length)
  | stored (counts : Counts a b) (stale : b.staleBlock = a.staleBlock)

theorem writeBlock_cycled {fragments : List Bytes} {r : Except LogError Unit}
    (hs : a.log.storage.Sound) (h : (writeBlock fragments).run a = (r, b)) : Cycled a b := by
  obtain ⟨e, hstore, rfl⟩ | ⟨address, c, log, hstore, hnote, hnoted⟩ := writeBlock_cases h
  · have hcounts := storeBlock_counts hstore
    cases storeBlock_spec hs hstore with
    | undone hkeeps => exact .undone (Nat.le_of_eq (congrArg List.length hkeeps.2)) hcounts rfl
    | stale hsound hstored => exact .stale hcounts rfl
  · have hcounts : Counts a c := storeBlock_counts hstore
    have hstale : c.staleBlock = a.staleBlock := by
      cases storeBlock_spec hs hstore with
      | durable hsound hstored => rfl
    have hstorage : log.storage = c.log.storage := by
      cases r with
      | ok => exact (IndexedLog.noteBlock_ok hnote).1
      | error e => rw [(IndexedLog.noteBlock_error hnote).1]
    obtain ⟨e, -, rfl⟩ | ⟨-, rfl⟩ := hnoted
    · exact .stored (hcounts.congr hstorage rfl) hstale
    · exact .stored (hcounts.congr hstorage rfl) hstale

theorem drainOnce_cycled {r : Except LogError Bool} (hs : a.log.storage.Sound)
    (h : drainOnce.run a = (r, b)) : Cycled a b := by
  obtain ⟨-, -, rfl⟩ | ⟨block, -, ⟨-, -, rfl⟩ | ⟨-, ⟨e, -, hw⟩ | ⟨c, -, hw, rfl⟩⟩⟩ := drainOnce_runs h
  · exact .undone (Nat.le_refl _) (Nat.le_refl _) rfl
  · exact .undone (Nat.le_refl _) (Nat.le_refl _) rfl
  · exact writeBlock_cycled hs hw
  · cases writeBlock_cycled hs hw with
    | undone shorter unflushed stale => exact .undone shorter unflushed stale
    | stale unflushed stale => exact .stale unflushed stale
    | stored counts stale => exact .stored (counts.congr rfl rfl) stale

theorem Cycled.halt (h : Cycled a b) (e : LogError) : Cycled a (b.halt e) := by
  cases h with
  | undone shorter unflushed stale => exact .undone shorter unflushed stale
  | stale unflushed stale => exact .stale unflushed stale
  | stored counts stale => exact .stored (counts.congr rfl rfl) stale

/-- Only a cycle that fails leaves a stale block. -/
theorem staleBlock_of_ok {drained : Bool} (hs : a.log.storage.Sound)
    (h : drainOnce.run a = (.ok drained, b)) : b.staleBlock = a.staleBlock := by
  obtain ⟨-, rfl⟩ | ⟨block, -, ⟨-, -, rfl⟩ | ⟨-, ⟨e, hr, -⟩ | ⟨c, -, hw, rfl⟩⟩⟩ := drainOnce_cases hs h
  · rfl
  · rfl
  · simp at hr
  · cases hw with
    | noted => rfl

theorem cycle_cycled (hlive : a.isLive = true) (hs : a.log.storage.Sound) :
    Cycled a a.cycle ∧ a.cycle.log.storage.Sound ∧ a.cycle.sync = a.sync ∧
      (a.cycle.isLive = true → a.cycle.staleBlock = a.staleBlock) := by
  generalize hrun : drainOnce.run a = run
  obtain ⟨r, b⟩ := run
  have hcycled := drainOnce_cycled hs hrun
  have hsound := (drainOnce_grows hs hrun).sound
  have hsync := (StandsAs.drainOnce hrun).sync
  cases r with
  | ok drained =>
    rw [cycle_of_ok hlive hrun]
    exact ⟨hcycled, hsound, hsync, fun _ => staleBlock_of_ok hs hrun⟩
  | error e =>
    rw [cycle_of_error hlive hrun]
    exact ⟨hcycled.halt e, hsound, hsync, fun h => by simp [isLive_halt] at h⟩

/-! ## What adds no block -/

/-- From `a` to `b` no block was added, and a stale block is still there or gone as a whole. -/
structure Eases (a b : Appender) : Prop where
  sound : b.log.storage.Sound
  shorter : b.stored.length ≤ a.stored.length
  sync : b.sync = a.sync
  unflushed : b.unflushed = a.unflushed
  stale : b.staleBlock = a.staleBlock ∨
    ∃ address, a.staleBlock = some address ∧ b.stored.length ≤ address

theorem Eases.refl (hs : a.log.storage.Sound) : a.Eases a := ⟨hs, Nat.le_refl _, rfl, rfl, .inl rfl⟩

/-- Beside the log only the strategy, the count and the stale block matter. -/
theorem Eases.congr (h : a.Eases b) (hlog : c.log = b.log) (hsync : c.sync = b.sync)
    (hunflushed : c.unflushed = b.unflushed) (hstale : c.staleBlock = b.staleBlock) : a.Eases c := by
  have hstored : c.stored = b.stored := by rw [stored, hlog]; rfl
  exact ⟨hlog ▸ h.sound, hstored ▸ h.shorter, hsync.trans h.sync, hunflushed.trans h.unflushed,
    by rw [hstale, hstored]; exact h.stale⟩

theorem Eases.of_keeps {t : Storage} (h : a.log.storage.Keeps t) : a.Eases (a.withStorage t) :=
  ⟨h.1, Nat.le_of_eq (congrArg List.length h.2), rfl, rfl, .inl rfl⟩

theorem discardStale_eases {r : Except LogError Unit} (hs : a.log.storage.Sound)
    (h : discardStale.run a = (r, b)) : a.Eases b ∧ (r = .ok () → b.staleBlock = none) := by
  obtain ⟨hnone, -, rfl⟩ | ⟨address, t, hstale, ⟨ht, rfl, rfl⟩ | ⟨e, ht, rfl, rfl⟩⟩ :=
    discardStale_cases h
  · exact ⟨.refl hs, fun _ => hnone⟩
  · obtain ⟨hsound, -, hcut⟩ := Storage.truncate_ok hs ht
    have hlength : t.stored.length = min address a.stored.length :=
      (congrArg List.length hcut).trans List.length_take
    refine ⟨⟨hsound, ?_, rfl, rfl, .inr ⟨address, hstale, ?_⟩⟩, fun _ => rfl⟩
    · exact hlength ▸ Nat.min_le_right ..
    · exact hlength ▸ Nat.min_le_left ..
  · exact ⟨.of_keeps (Storage.truncate_error hs ht), by simp⟩

/-- An appender that was started has no stale block. -/
theorem start_eases {r : Except LogError Unit} (hs : a.log.storage.Sound)
    (hwhole : a.isLive = true → a.staleBlock = none) (h : start.run a = (r, b)) :
    a.Eases b ∧ (b.isLive = true → b.staleBlock = none) := by
  obtain ⟨-, -, rfl⟩ | ⟨-, e, hc, -⟩ | ⟨-, c, hc, -, rfl⟩ := start_cases h
  · exact ⟨.refl hs, hwhole⟩
  · have hrests : b.isLive = false := by
      rw [(StandsAs.discardStale hc).isLive]
      rfl
    have hdiscard := discardStale_eases (a := { a with isRunning := false }) hs hc
    exact ⟨{ hdiscard.1 with }, by simp [hrests]⟩
  · obtain ⟨heases, hnone⟩ := discardStale_eases (a := { a with isRunning := false }) hs hc
    have heases : a.Eases c := { heases with }
    unfold announceRecovery
    split
    · exact ⟨heases.congr rfl rfl rfl rfl, fun _ => hnone rfl⟩
    · exact ⟨heases.congr rfl rfl rfl rfl, fun _ => hnone rfl⟩

/-- The last flush leaves in storage what the last drain left there. -/
theorem finishUp_eases (hs : (drain a).2.log.storage.Sound) : (drain a).2.Eases a.finishUp := by
  obtain hfailed | ⟨b, r, t, hdrained, ht, hends⟩ := finishUp_cases a
  · rw [hfailed] at hs ⊢
    exact .refl hs
  · rw [hdrained] at hs ⊢
    have heases := Eases.of_keeps (Storage.flush_keeps hs ht)
    obtain ⟨-, hb⟩ | ⟨e, -, hb⟩ := hends
    · rw [hb]
      exact heases
    · rw [hb]
      exact heases.congr rfl rfl rfl rfl

theorem stop_eases (hlive : a.isLive = true) (hs : (drain a).2.log.storage.Sound) :
    (drain a).2.Eases a.stop := by
  unfold stop
  simp only [hlive, if_true]
  exact (finishUp_eases hs).congr rfl rfl rfl rfl

/-- A live appender that is about to drain. -/
def roused (a : Appender) : Appender :=
  if a.isFresh then { a with isFresh := false } else a.answerDoorbell

theorem roused_spec (a : Appender) :
    a.StandsAs a.roused ∧ a.roused.log = a.log ∧ a.roused.unflushed = a.unflushed ∧
      a.roused.staleBlock = a.staleBlock := by
  unfold roused
  split
  · exact ⟨⟨rfl, rfl, rfl, rfl, rfl⟩, rfl, rfl, rfl⟩
  · exact ⟨⟨rfl, rfl, rfl, rfl, rfl⟩, rfl, rfl, rfl⟩

theorem wake_of_live (h : a.isLive = true) :
    a.wake = (drain a.roused).2 ∨ a.wake = (drain a.roused).2.answerDoorbell := by
  unfold wake roused
  simp only [h, Bool.not_true, Bool.false_eq_true, if_false]
  cases a.isFresh with
  | false => exact .inl rfl
  | true =>
    simp only [if_true]
    generalize drain { a with isFresh := false } = drained
    obtain ⟨goesOn, b⟩ := drained
    cases goesOn with
    | false => exact .inl rfl
    | true => exact .inr rfl

/-! ## The backlog -/

/-- Whether there is a cycle to be done and it succeeds. -/
def succeeds (a : Appender) : Bool := a.isLive && (drainOnce.run a).1.toOption.isSome

theorem isLive_of_succeeds (h : a.succeeds = true) : a.cycle.isLive = true := by
  obtain ⟨hlive, hok⟩ : a.isLive = true ∧ (drainOnce.run a).1.toOption.isSome = true := by
    simpa [succeeds] using h
  generalize hrun : drainOnce.run a = run at hok
  obtain ⟨r, b⟩ := run
  cases r with
  | error e => simp [Except.toOption] at hok
  | ok drained =>
    rw [cycle_of_ok hlive hrun, (StandsAs.drainOnce hrun).isLive]
    exact hlive

structure Backlog where
  appender : Appender
  /-- Where the blocks begin that are in storage and were appended after the last flush. -/
  unflushed : List Nat := []
  /-- What was so after each cycle that succeeded. -/
  marks : List (List Nat) := []

namespace Backlog

/-- Without a block appended or a flush. -/
def cut (l : Backlog) (b : Appender) : Backlog :=
  { l with appender := b, unflushed := l.unflushed.filter (· < b.stored.length) }

/-- With at most one block appended, and then one flush. -/
def pass (l : Backlog) (b : Appender) : Backlog :=
  if Flushed l.appender b then { l with appender := b, unflushed := [] }
  else if l.appender.stored.length < b.stored.length then
    { l with appender := b, unflushed := l.unflushed ++ [l.appender.stored.length] }
  else l.cut b

def cycle (l : Backlog) : Backlog :=
  let next := l.pass l.appender.cycle
  if l.appender.succeeds then { next with marks := next.marks ++ [next.unflushed] } else next

/-- As many cycles as can be done, and one. -/
def cycles (l : Backlog) : Backlog := cycle^[l.appender.buffer.slots.length + 1] l

def step (l : Backlog) (move : Move) : Backlog :=
  match move with
  | .cycle => l.cycle
  | .wake => (l.cut l.appender.roused).cycles.pass l.appender.wake
  | .stop => l.cycles.pass l.appender.stop
  | .elsewhere _ _ => l.cut (move.act l.appender)
  | _ => l.pass (move.act l.appender)

end Backlog

def backlog (a : Appender) (moves : List Move) : Backlog :=
  moves.foldl Backlog.step { appender := a }

namespace Backlog

variable {window : Nat} {l m : Backlog}

theorem appender_pass (l : Backlog) (b : Appender) : (l.pass b).appender = b := by
  unfold pass
  split
  · rfl
  · split
    · rfl
    · rfl

theorem marks_pass (l : Backlog) (b : Appender) : (l.pass b).marks = l.marks := by
  unfold pass
  split
  · rfl
  · split
    · rfl
    · rfl

theorem appender_cycle (l : Backlog) : l.cycle.appender = l.appender.cycle := by
  unfold cycle
  split
  · exact appender_pass l _
  · exact appender_pass l _

theorem appender_step (l : Backlog) (move : Move) : (l.step move).appender = move.act l.appender := by
  cases move with
  | cycle => exact appender_cycle l
  | elsewhere log buffer => rfl
  | _ => exact appender_pass ..

/-- The cycles of a live appender are those of its drain. -/
theorem appender_cycles (l : Backlog) :
    l.cycles.appender = if l.appender.isLive then (drain l.appender).2 else l.appender := by
  have hsame : l.cycles.appender
      = Appender.cycle^[l.appender.buffer.slots.length + 1] l.appender :=
    Function.Semiconj.iterate_right (f := appender) appender_cycle _ l
  rw [hsame]
  split
  · next hlive => exact iterate_cycle hlive (Nat.lt_succ_self _)
  · next hlive => exact iterate_cycle_of_idle (by simpa using hlive) _

/-- What will be left of the backlog when a stale block is discarded. -/
def left (l : Backlog) : List Nat :=
  l.unflushed.filter fun address => l.appender.staleBlock.all (address < ·)

theorem left_of_none (h : l.appender.staleBlock = none) : l.left = l.unflushed := by
  simp [left, h]

/-- The count of the appender is never below what is left, and that never reaches the window. -/
structure Bounded (window : Nat) (l : Backlog) : Prop where
  sync : l.appender.sync.window = window
  sound : l.appender.log.storage.Sound
  whole : l.appender.isLive = true → l.appender.staleBlock = none
  counted : l.left.length ≤ l.appender.unflushed
  few : l.left.length < window
  marked : ∀ mark ∈ l.marks, mark.length < window

theorem left_sublist (he : l.appender.Eases m.appender)
    (hsub : m.unflushed.Sublist (l.unflushed.filter (· < m.appender.stored.length))) :
    m.left.Sublist l.left := by
  rcases he.stale with hstale | ⟨address, hstale, hle⟩
  · unfold left
    rw [hstale]
    exact (hsub.trans List.filter_sublist).filter _
  · -- what is left in storage lies before the stale block
    have hbefore : ∀ place ∈ l.unflushed.filter (· < m.appender.stored.length),
        l.appender.staleBlock.all (place < ·) = true := by
      intro place hplace
      have hlt := (List.mem_filter.1 hplace).2
      simp only [decide_eq_true_eq] at hlt
      simp only [hstale, Option.all_some, decide_eq_true_eq]
      omega
    rw [← List.filter_eq_self.2 hbefore] at hsub
    exact List.filter_sublist.trans (hsub.trans (List.filter_sublist.filter _))

theorem Bounded.eases (h : l.Bounded window) (he : l.appender.Eases m.appender)
    (hsub : m.unflushed.Sublist (l.unflushed.filter (· < m.appender.stored.length)))
    (hmarks : m.marks = l.marks)
    (hwhole : m.appender.isLive = true → m.appender.staleBlock = none) : m.Bounded window where
  sync := by rw [he.sync, h.sync]
  sound := he.sound
  whole := hwhole
  counted := he.unflushed ▸ Nat.le_trans (left_sublist he hsub).length_le h.counted
  few := Nat.lt_of_le_of_lt (left_sublist he hsub).length_le h.few
  marked := hmarks ▸ h.marked

theorem Bounded.cut (h : l.Bounded window) {b : Appender} (he : l.appender.Eases b)
    (hwhole : b.isLive = true → b.staleBlock = none) : (l.cut b).Bounded window :=
  h.eases (m := l.cut b) he (List.Sublist.refl _) rfl hwhole

theorem Bounded.pass (h : l.Bounded window) {b : Appender} (he : l.appender.Eases b)
    (hwhole : b.isLive = true → b.staleBlock = none) : (l.pass b).Bounded window := by
  have hshorter := he.shorter
  unfold Backlog.pass
  split
  · exact h.eases (m := { l with appender := b, unflushed := [] }) he (List.nil_sublist _) rfl hwhole
  · rw [if_neg (by omega)]
    exact h.cut he hwhole

theorem length_left_le (l : Backlog) : l.left.length ≤ l.unflushed.length := List.length_filter_le ..

theorem pass_of_flushed {b : Appender} (h : Flushed l.appender b) :
    l.pass b = { l with appender := b, unflushed := [] } := if_pos h

theorem length_pass_le (l : Backlog) (b : Appender) :
    (l.pass b).unflushed.length ≤ l.unflushed.length + 1 := by
  unfold pass
  split
  · simp
  · split
    · simp
    · exact Nat.le_succ_of_le (List.length_filter_le ..)

theorem length_pass_of_shorter {b : Appender} (h : b.stored.length ≤ l.appender.stored.length) :
    (l.pass b).unflushed.length ≤ l.unflushed.length := by
  unfold pass
  split
  · simp
  · rw [if_neg (by omega)]
    exact List.length_filter_le ..

/-- A stale block is not among what is left. -/
theorem length_left_of_stale {b : Appender} (h : b.staleBlock = some l.appender.stored.length) :
    (l.pass b).left.length ≤ l.unflushed.length := by
  unfold pass
  split
  · simp [left]
  · split
    · simp only [left, h, Option.all_some, List.filter_append]
      simpa using List.length_filter_le ..
    · exact Nat.le_trans (length_left_le _) (List.length_filter_le ..)

theorem left_cycled {b : Appender} (hcounted : l.unflushed.length ≤ l.appender.unflushed)
    (hfew : l.unflushed.length < l.appender.sync.window) (h : Cycled l.appender b) :
    (l.pass b).left.length ≤ b.unflushed ∧ (l.pass b).left.length < l.appender.sync.window := by
  have hleft := length_left_le (l.pass b)
  cases h with
  | undone shorter unflushed stale =>
    have := length_pass_of_shorter shorter
    omega
  | stale unflushed stale =>
    have := length_left_of_stale stale
    omega
  | stored counts stale =>
    rcases counts with hflushed | ⟨hcount, hlt⟩
    · rw [pass_of_flushed hflushed] at hleft ⊢
      rw [List.length_nil] at hleft
      omega
    · have := length_pass_le l b
      omega

/-- One cycle, before it is known whether it succeeds. -/
theorem Bounded.passCycle (h : l.Bounded window) (hlive : l.appender.isLive = true) :
    (l.pass l.appender.cycle).Bounded window := by
  obtain ⟨hcycled, hsound, hsync, hstale⟩ := cycle_cycled hlive h.sound
  have hnone := h.whole hlive
  have hcounted := h.counted
  have hfew := h.few
  rw [left_of_none hnone] at hcounted hfew
  rw [← h.sync] at hfew
  obtain ⟨hcount, hlt⟩ := left_cycled hcounted hfew hcycled
  exact {
    sync := by rw [appender_pass, hsync, h.sync]
    sound := by rwa [appender_pass]
    whole := by
      rw [appender_pass]
      exact fun hgoes => (hstale hgoes).trans hnone
    counted := by rwa [appender_pass]
    few := h.sync ▸ hlt
    marked := by
      rw [marks_pass]
      exact h.marked }

theorem Bounded.cycle (h : l.Bounded window) : l.cycle.Bounded window := by
  cases hlive : l.appender.isLive with
  | false =>
    have hidle : l.appender.cycle = l.appender := cycle_of_idle hlive
    have hno : l.appender.succeeds = false := by simp [succeeds, hlive]
    unfold Backlog.cycle
    simp only [hidle, hno]
    exact h.pass (.refl h.sound) h.whole
  | true =>
    have hpassed := h.passCycle hlive
    unfold Backlog.cycle
    dsimp only
    split
    · next hsucceeds =>
      -- the appender goes on, so there is no stale block
      have hgoes : (l.pass l.appender.cycle).appender.isLive = true := by
        rw [appender_pass]
        exact isLive_of_succeeds hsucceeds
      have hmark := hpassed.few
      rw [left_of_none (hpassed.whole hgoes)] at hmark
      refine { hpassed with marked := fun mark hmem => ?_ }
      rcases List.mem_append.1 hmem with hmem | hmem
      · exact hpassed.marked mark hmem
      · obtain rfl := List.mem_singleton.1 hmem
        exact hmark
    · exact hpassed

theorem Bounded.cycles (h : l.Bounded window) : l.cycles.Bounded window := by
  unfold Backlog.cycles
  generalize l.appender.buffer.slots.length + 1 = n
  induction n with
  | zero => exact h
  | succ n ih =>
    rw [Function.iterate_succ_apply']
    exact ih.cycle

theorem Bounded.wake (h : l.Bounded window) : (l.step .wake).Bounded window := by
  obtain ⟨hstands, hlog, hunflushed, hstale⟩ := roused_spec l.appender
  have hroused : l.appender.Eases l.appender.roused :=
    (Eases.refl h.sound).congr hlog hstands.sync hunflushed hstale
  have hcycled : (l.cut l.appender.roused).cycles.Bounded window := by
    refine (h.cut hroused ?_).cycles
    rw [hstands.isLive, hstale]
    exact h.whole
  have happender := appender_cycles (l.cut l.appender.roused)
  rw [show (l.cut l.appender.roused).appender = l.appender.roused from rfl, hstands.isLive] at happender
  cases hlive : l.appender.isLive with
  | true =>
    rw [hlive, if_pos rfl] at happender
    have hrefl := Eases.refl hcycled.sound
    have hwhole := hcycled.whole
    rcases wake_of_live hlive with hwake | hwake
    · rw [← happender] at hwake
      exact hcycled.pass (hwake ▸ hrefl) (hwake ▸ hwhole)
    · rw [← happender] at hwake
      exact hcycled.pass (hwake ▸ hrefl.congr rfl rfl rfl rfl) (hwake ▸ hwhole)
  | false =>
    rw [hlive, if_neg Bool.false_ne_true] at happender
    refine hcycled.pass ?_ (by rw [wake_of_idle hlive]; exact h.whole)
    rw [wake_of_idle hlive, happender]
    exact (Eases.refl hroused.sound).congr hlog.symm hstands.sync.symm hunflushed.symm hstale.symm

theorem Bounded.stop (h : l.Bounded window) : (l.step .stop).Bounded window := by
  have hstopped : l.appender.stop.isLive = true → l.appender.stop.staleBlock = none := by
    simp [Appender.stop, isLive]
  have happender := appender_cycles l
  have hcycled := h.cycles
  refine hcycled.pass ?_ hstopped
  cases hlive : l.appender.isLive with
  | true =>
    rw [happender, if_pos hlive]
    refine stop_eases hlive ?_
    have hsound := hcycled.sound
    rwa [happender, if_pos hlive] at hsound
  | false =>
    rw [happender, if_neg (by simp [hlive])]
    refine (Eases.refl h.sound).congr ?_ ?_ ?_ ?_
    all_goals simp only [Appender.stop, hlive]
    all_goals rfl

theorem Bounded.step (h : l.Bounded window) (move : Move) : (l.step move).Bounded window := by
  have hrefl := Eases.refl h.sound
  cases move with
  | start =>
    obtain ⟨heases, hwhole⟩ :=
      start_eases h.sound h.whole (Prod.eta (Appender.start.run l.appender)).symm
    exact h.pass heases hwhole
  | stop => exact h.stop
  | cycle => exact h.cycle
  | wake => exact h.wake
  | discardStale =>
    have hrun := (Prod.eta (Appender.discardStale.run l.appender)).symm
    refine h.pass (discardStale_eases h.sound hrun).1 fun hlive => ?_
    have hnone := h.whole ((StandsAs.discardStale hrun).isLive ▸ hlive)
    obtain ⟨-, -, hsame⟩ | ⟨address, -, hstale, -⟩ := discardStale_cases hrun
    · rw [Move.act, hsame]
      exact hnone
    · simp [hnone] at hstale
  | resetFailure =>
    show (l.pass l.appender.resetFailure).Bounded window
    unfold Appender.resetFailure
    split
    · exact h.pass (hrefl.congr rfl rfl rfl rfl) (by simp [isLive])
    · exact h.pass hrefl h.whole
  | moveTo position =>
    show (l.pass ((Appender.moveTo position).run l.appender).2).Bounded window
    unfold Attempt.run Appender.moveTo
    split
    · exact h.pass hrefl h.whole
    · exact h.pass (hrefl.congr rfl rfl rfl rfl) h.whole
  | register listener => exact h.pass (hrefl.congr rfl rfl rfl rfl) h.whole
  | remove key => exact h.pass (hrefl.congr rfl rfl rfl rfl) h.whole
  | elsewhere log buffer =>
    show (l.cut ((Move.elsewhere log buffer).act l.appender)).Bounded window
    unfold Move.act
    dsimp only
    split
    · next hprefix => exact h.cut ⟨log.2, hprefix.length_le, rfl, rfl, .inl rfl⟩ h.whole
    · exact h.cut hrefl h.whole

end Backlog

theorem backlog_concat (a : Appender) (moves : List Move) (move : Move) :
    a.backlog (moves ++ [move]) = (a.backlog moves).step move := by
  simp [backlog]

theorem appender_backlog (a : Appender) (moves : List Move) :
    (a.backlog moves).appender = a.after moves := by
  induction moves using List.reverseRecOn with
  | nil => rfl
  | append_singleton moves move ih =>
    rw [backlog_concat, after_concat, Backlog.appender_step, ih]

theorem bounded_backlog (hs : a.log.storage.Sound) (hrests : a.isRunning = false)
    (hwindow : 0 < a.sync.window) (moves : List Move) :
    (a.backlog moves).Bounded a.sync.window := by
  induction moves using List.reverseRecOn with
  | nil =>
    exact {
      sync := rfl
      sound := hs
      whole := by simp [backlog, isLive, hrests]
      counted := Nat.zero_le _
      few := hwindow
      marked := by simp [backlog] }
  | append_singleton moves move ih =>
    rw [backlog_concat]
    exact ih.step move

/-- After every cycle that succeeds, fewer blocks are in storage without a flush after them than make a
flush due: none, if every block is flushed. -/
theorem few_unflushed (hs : a.log.storage.Sound) (hrests : a.isRunning = false) (moves : List Move) :
    (a.backlog moves).appender = a.after moves ∧
      (∀ count, a.sync = .everyBlocks count → 0 < count →
        ∀ unflushed ∈ (a.backlog moves).marks, unflushed.length < count) ∧
      (a.sync = .everyBlock → ∀ unflushed ∈ (a.backlog moves).marks, unflushed = []) := by
  have hbounded (hwindow : 0 < a.sync.window) := bounded_backlog hs hrests hwindow moves
  refine ⟨appender_backlog a moves, fun count hsync hcount => ?_, fun hsync unflushed hmem => ?_⟩
  · rw [hsync] at hbounded
    exact (hbounded hcount).marked
  · rw [hsync] at hbounded
    have hlt := (hbounded Nat.one_pos).marked unflushed hmem
    exact List.length_eq_zero_iff.1 (Nat.lt_one_iff.1 hlt)

/-- The first flush fails, and so does taking back the block. -/
def unsteadyAppender : Appender where
  log := {
    storage := {
      medium := .memory true [] 0
      faults := (FaultPlan.none.set .flush (.failFirst 1)).set .truncate (.failFirst 1) }
    sampling := ⟨1, 64, none, true, none⟩ }
  buffer := {
    capacity := 256
    maxFragment := 8
    slots := [⟨0, 24, .committed [1, 2]⟩, ⟨1, 24, .committed [3]⟩, ⟨2, 24, .committed [4]⟩]
    tail := 72
    nextSlot := 3 }
  maxBlock := 16
  sync := .everyBlocks 2

/-- The second block is left in storage by a failed cycle, discarded, and written again. -/
theorem few_unflushed_unsteady :
    unsteadyAppender.log.storage.Sound ∧ unsteadyAppender.isRunning = false ∧
      (unsteadyAppender.backlog [.start, .cycle, .cycle, .stop, .start, .cycle, .cycle]).marks
        = [[0], [], [35]] ∧
      ∀ unflushed ∈ (unsteadyAppender.backlog
        [.start, .cycle, .cycle, .stop, .start, .cycle, .cycle]).marks, unflushed.length < 2 := by
  refine ⟨trivial, rfl, by decide +kernel, ?_⟩
  exact (few_unflushed (a := unsteadyAppender) trivial rfl _).2.1 2 rfl (by decide)

end Appender
end PartitionLog
