import PartitionLog.Proofs.Orderly

/-!
# Runs of an appender

What is done to an appender, one `Move` at a time. Its owner starts and stops it, wakes it, has it
discard a stale block, and forgets a halt or sets its position before it is started again. Listeners
come and go. Elsewhere producers work on the buffer and the stream on the log, to which only the
appender adds bytes; which storage calls fail is up to the fault plan, and that can be another one
then. Draining is as many cycles as there are (`iterate_cycle`).
-/

namespace PartitionLog.Appender

inductive Move where
  | start
  | stop
  /-- One cycle. -/
  | cycle
  /-- All cycles that can be done, as when the doorbell rings. -/
  | wake
  | discardStale
  | resetFailure
  | moveTo (position : Int)
  | register (listener : Listener)
  | remove (key : ListenerKey)
  /-- Others change the log and the buffer. -/
  | elsewhere (log : { log : IndexedLog // log.storage.Sound }) (buffer : WriteBuffer)

def Move.act (a : Appender) : Move → Appender
  | .start => (Appender.start.run a).2
  | .stop => a.stop
  | .cycle => a.cycle
  | .wake => a.wake
  | .discardStale => (Appender.discardStale.run a).2
  | .resetFailure => a.resetFailure
  | .moveTo position => ((Appender.moveTo position).run a).2
  | .register listener => { a with listeners := a.listeners.register listener }
  | .remove key => { a with listeners := a.listeners.remove key }
  | .elsewhere log buffer =>
    if log.val.storage.stored <+: a.stored then { a with log := log.val, buffer := buffer } else a

def after (a : Appender) (moves : List Move) : Appender := moves.foldl Move.act a

theorem after_concat (a : Appender) (moves : List Move) (move : Move) :
    a.after (moves ++ [move]) = move.act (a.after moves) := by
  simp [after]

variable {a b c : Appender}

/-! ## Standing -/

/-- `b` drains as `a` does, and has told nobody of a halt or a recovery. -/
structure StandsAs (a b : Appender) : Prop where
  sync : b.sync = a.sync
  phase : b.phase = a.phase
  isRunning : b.isRunning = a.isRunning
  failedBefore : b.failedBefore = a.failedBefore
  listeners : b.listeners = a.listeners

namespace StandsAs

theorem refl (a : Appender) : a.StandsAs a := ⟨rfl, rfl, rfl, rfl, rfl⟩

theorem of_eq (h : b = a) : a.StandsAs b := h ▸ refl a

theorem trans (h : a.StandsAs b) (h' : b.StandsAs c) : a.StandsAs c :=
  ⟨h'.sync.trans h.sync, h'.phase.trans h.phase, h'.isRunning.trans h.isRunning,
    h'.failedBefore.trans h.failedBefore, h'.listeners.trans h.listeners⟩

instance : IsPreorder Appender StandsAs where
  refl := refl
  trans _ _ _ := trans

theorem isLive (h : a.StandsAs b) : b.isLive = a.isLive := by
  simp only [Appender.isLive, h.phase, h.isRunning]

theorem atCycle : AtCycle StandsAs where
  append _ _ := ⟨rfl, rfl, rfl, rfl, rfl⟩
  flush _ := ⟨rfl, rfl, rfl, rfl, rfl⟩
  truncate _ _ := ⟨rfl, rfl, rfl, rfl, rfl⟩
  note _ _ _ _ := ⟨rfl, rfl, rfl, rfl, rfl⟩
  count _ _ := ⟨rfl, rfl, rfl, rfl, rfl⟩
  mark _ _ := ⟨rfl, rfl, rfl, rfl, rfl⟩
  move _ _ := ⟨rfl, rfl, rfl, rfl, rfl⟩
  free _ _ := ⟨rfl, rfl, rfl, rfl, rfl⟩

theorem drainOnce {r : Except LogError Bool} (h : drainOnce.run a = (r, b)) : a.StandsAs b := by
  have hstands := atCycle.drainOnce a
  rwa [h] at hstands

theorem discardStale {r : Except LogError Unit} (h : discardStale.run a = (r, b)) :
    a.StandsAs b := by
  obtain ⟨-, -, rfl⟩ | ⟨address, t, -, ⟨-, -, rfl⟩ | ⟨e, -, -, rfl⟩⟩ := discardStale_cases h
  · exact .refl b
  · exact ⟨rfl, rfl, rfl, rfl, rfl⟩
  · exact ⟨rfl, rfl, rfl, rfl, rfl⟩

end StandsAs

/-! ## Cycles -/

/-- A cycle that finds nothing to drain changes nothing. -/
theorem eq_of_drainOnce_false (h : drainOnce.run a = (.ok false, b)) : b = a := by
  obtain ⟨-, -, hb⟩ | ⟨block, -, ⟨-, hr, -⟩ | ⟨-, ⟨e, hr, -⟩ | ⟨c, hr, -, -⟩⟩⟩ := drainOnce_runs h
  · exact hb
  all_goals simp at hr

theorem cycle_of_idle (h : a.isLive = false) : a.cycle = a := by
  simp [cycle, h]

theorem wake_of_idle (h : a.isLive = false) : a.wake = a := by
  simp [wake, h]

theorem cycle_of_ok (hlive : a.isLive = true) {drained : Bool}
    (h : drainOnce.run a = (.ok drained, b)) : a.cycle = b := by
  simp [cycle, hlive, h]

theorem cycle_of_error (hlive : a.isLive = true) {e : LogError}
    (h : drainOnce.run a = (.error e, b)) : a.cycle = b.halt e := by
  simp [cycle, hlive, h]

theorem isLive_halt (a : Appender) (e : LogError) : (a.halt e).isLive = false := by
  simp [isLive, halt]

theorem iterate_cycle_of_idle (h : a.isLive = false) (n : Nat) : cycle^[n] a = a :=
  Function.iterate_fixed (cycle_of_idle h) n

/-- Draining is one cycle after the other; a cycle that has nothing to do does no harm. -/
theorem iterate_cycle (hlive : a.isLive = true) {n : Nat} (hn : a.buffer.slots.length < n) :
    cycle^[n] a = (drain a).2 := by
  obtain ⟨n, rfl⟩ : ∃ m, n = m + 1 := ⟨n - 1, by omega⟩
  rw [Function.iterate_succ_apply]
  fun_induction drain a generalizing n with
  | case1 a b h ih =>
    have hfewer := length_drainOnce h
    obtain ⟨n, rfl⟩ : ∃ m, n = m + 1 := ⟨n - 1, by omega⟩
    rw [cycle_of_ok hlive h, Function.iterate_succ_apply]
    exact ih ((StandsAs.drainOnce h).isLive.trans hlive) n (by omega)
  | case2 a b h =>
    obtain rfl := eq_of_drainOnce_false h
    have hcycle := cycle_of_ok hlive h
    rw [hcycle]
    exact Function.iterate_fixed hcycle n
  | case3 a e b h =>
    rw [cycle_of_error hlive h]
    exact iterate_cycle_of_idle (isLive_halt b e) n

end PartitionLog.Appender
