import Mathlib.Data.List.Chain
import Mathlib.Data.List.Infix
import Mathlib.Data.List.Nodup
import PartitionLog.Proofs.AppenderRuns

/-!
# Notices of halts and recoveries

A `Watch` follows an appender and writes down what there is to tell: that it halts, and that it is
started for the first time after a halt. Every move of the appender comes to one of these or to nothing
(`act_outcome`), and the listeners that are registered then are told so, in the order of their
registration. So what a listener hears alternates, and an appender that halted stays idle until it is
started (`halts_are_told`).
-/

namespace PartitionLog

inductive Notice.Kind where
  | failure
  | recovery
  deriving DecidableEq, Repr

def Notice.kind : Notice → Notice.Kind
  | .failure _ => .failure
  | .recovered => .recovery

/-- One after the other, a failure first. -/
def Notice.Kind.Alternate (news : List Notice.Kind) : Prop :=
  news.head? ≠ some .recovery ∧ news.IsChain (· ≠ ·)

theorem Notice.Kind.Alternate.concat {news : List Notice.Kind} (h : Alternate news)
    {kind : Notice.Kind} (hturns : kind = .failure ↔ news.getLast? ≠ some .failure) :
    Alternate (news ++ [kind]) := by
  refine ⟨?_, h.2.append (.singleton kind) ?_⟩
  · cases news with
    | nil => simp [hturns.2 (by simp)]
    | cons first rest => exact h.1
  · intro last hlast other hother heq
    obtain rfl : kind = other := by simpa using hother
    subst heq
    rw [Option.mem_def.1 hlast] at hturns
    simp at hturns

def Delivery.call (d : Delivery) : Listener × Notice.Kind := (d.listener, d.notice.kind)

namespace Listeners

/-- Whom a listener's notices were delivered to, and what they said, in the order of delivery. -/
def calls (ls : Listeners) : List (Listener × Notice.Kind) := ls.delivered.map Delivery.call

/-- What a listener was told. -/
def toldTo (ls : Listeners) (listener : Listener) : List Notice.Kind :=
  (ls.calls.filter (·.1 = listener)).map Prod.snd

/-- No key is registered twice. -/
def Distinct (ls : Listeners) : Prop := (ls.registered.map Listener.key).Nodup

instance (ls : Listeners) : Decidable ls.Distinct := inferInstanceAs (Decidable (List.Nodup _))

variable {ls : Listeners}

theorem Distinct.register (h : ls.Distinct) (listener : Listener) : (ls.register listener).Distinct := by
  unfold Listeners.register
  split
  · exact h
  · next hnew =>
    unfold Distinct
    simp only [List.map_append, List.map_cons, List.map_nil]
    refine List.nodup_append.2 ⟨h, List.nodup_singleton _, ?_⟩
    intro key hkey other hother heq
    obtain ⟨x, hx, rfl⟩ := List.mem_map.1 hkey
    obtain rfl := List.mem_singleton.1 hother
    exact hnew (List.any_eq_true.2 ⟨x, hx, by simpa using heq⟩)

theorem Distinct.remove (h : ls.Distinct) (key : ListenerKey) : (ls.remove key).Distinct :=
  h.sublist (List.filter_sublist.map _)

theorem Distinct.filter_eq (h : ls.Distinct) {x : Listener} (hx : x ∈ ls.registered) :
    ls.registered.filter (· = x) = [x] := by
  rw [List.filter_eq, List.count_eq_one_of_mem (List.Nodup.of_map _ h) hx]
  rfl

theorem calls_notify (ls : Listeners) (notice : Notice) :
    (ls.notify notice).calls = ls.calls ++ ls.registered.map (·, notice.kind) := by
  simp [calls, notify, Delivery.call, Function.comp_def]

end Listeners

namespace Appender

variable {a b : Appender}

/-- Whether a move makes a live appender halt. -/
def Move.halts (a : Appender) (move : Move) : Bool :=
  a.isLive && decide ((move.act a).phase = .failed)

/-- Whether a move is a start that succeeds. -/
def Move.opens (a : Appender) : Move → Bool
  | .start => (Appender.start.run a).1.toOption.isSome
  | _ => false

/-- What a move does that is to be told. -/
def Move.news (isHalted : Bool) (a : Appender) (move : Move) : Option Notice.Kind :=
  if move.halts a then some .failure
  else if isHalted && move.opens a then some .recovery
  else none

structure Watch where
  appender : Appender
  /-- Whether the appender halted and was not started since. -/
  isHalted : Bool := false
  news : List Notice.Kind := []
  /-- Who is to be told what, in this order. -/
  calls : List (Listener × Notice.Kind) := []

namespace Watch

def step (w : Watch) (move : Move) : Watch :=
  let news := move.news w.isHalted w.appender
  { appender := move.act w.appender
    isHalted := news.elim w.isHalted (· = .failure)
    news := w.news ++ news.toList
    calls := w.calls ++ news.toList.flatMap fun kind => w.appender.listeners.registered.map (·, kind) }

end Watch

def watched (a : Appender) (moves : List Move) : Watch := moves.foldl Watch.step { appender := a }

theorem watched_concat (a : Appender) (moves : List Move) (move : Move) :
    a.watched (moves ++ [move]) = (a.watched moves).step move := by
  simp [watched]

theorem appender_watched (a : Appender) (moves : List Move) :
    (a.watched moves).appender = a.after moves := by
  induction moves using List.reverseRecOn with
  | nil => rfl
  | append_singleton moves move ih => rw [watched_concat, after_concat, ← ih]; rfl

/-! ## What work comes to -/

/-- What became of an appender at work: it stands as it did, or it halted and said so. -/
inductive Worked (a b : Appender) : Prop where
  | stands (h : a.StandsAs b)
  | halted (e : LogError) (phase : b.phase = .failed) (failedBefore : b.failedBefore = true)
      (listeners : b.listeners = a.listeners.notify (.failure e))

theorem Worked.of_halt {e : LogError} (h : a.StandsAs b) : a.Worked (b.halt e) :=
  .halted e rfl rfl (by rw [← h.listeners]; rfl)

theorem Worked.of_stands {c : Appender} (h : a.StandsAs b) (h' : b.Worked c) : a.Worked c := by
  cases h' with
  | stands h' => exact .stands (h.trans h')
  | halted e phase failedBefore listeners =>
    exact .halted e phase failedBefore (by rw [listeners, h.listeners])

theorem drain_worked (a : Appender) :
    a.Worked (drain a).2 ∧ ((drain a).1 = true → a.StandsAs (drain a).2) := by
  fun_induction drain a with
  | case1 a b h ih =>
    have hstands := StandsAs.drainOnce h
    exact ⟨.of_stands hstands ih.1, fun hgoes => hstands.trans (ih.2 hgoes)⟩
  | case2 a b h => exact ⟨.stands (StandsAs.drainOnce h), fun _ => StandsAs.drainOnce h⟩
  | case3 a e b h => exact ⟨.of_halt (StandsAs.drainOnce h), by simp⟩

theorem cycle_worked (a : Appender) : a.Worked a.cycle := by
  unfold cycle
  split
  · split
    · next h => exact .stands (StandsAs.drainOnce h)
    · next h => exact .of_halt (StandsAs.drainOnce h)
  · exact .stands (.refl a)

theorem wake_worked (a : Appender) : a.Worked a.wake := by
  unfold wake
  split
  · exact .stands (.refl a)
  · split
    · have hdrain := drain_worked { a with isFresh := false }
      have hlook : a.StandsAs { a with isFresh := false } := ⟨rfl, rfl, rfl, rfl, rfl⟩
      split
      · next b hd =>
        rw [hd] at hdrain
        exact .stands (hlook.trans ((hdrain.2 rfl).trans ⟨rfl, rfl, rfl, rfl, rfl⟩))
      · next b hd =>
        rw [hd] at hdrain
        exact .of_stands hlook hdrain.1
    · have hanswer : a.StandsAs a.answerDoorbell := ⟨rfl, rfl, rfl, rfl, rfl⟩
      exact .of_stands hanswer (drain_worked a.answerDoorbell).1

theorem finishUp_worked (a : Appender) : a.Worked a.finishUp := by
  have hdrain := drain_worked a
  obtain hfailed | ⟨b, r, t, hdrained, -, hends⟩ := finishUp_cases a
  · rw [hfailed] at hdrain
    exact hdrain.1
  · rw [hdrained] at hdrain
    have hflush : a.StandsAs (b.withStorage t) := (hdrain.2 rfl).trans ⟨rfl, rfl, rfl, rfl, rfl⟩
    obtain ⟨-, hb⟩ | ⟨e, -, hb⟩ := hends
    · rw [hb]
      exact .stands hflush
    · rw [hb]
      exact .of_halt hflush

/-! ## What a move comes to -/

/-- From `a` to `b` this was to be told, and was. -/
structure Outcome (a b : Appender) (news : Option Notice.Kind) : Prop where
  told : b.listeners.calls = a.listeners.calls ++ news.toList.flatMap fun kind =>
    a.listeners.registered.map (·, kind)
  failedBefore : b.failedBefore = news.elim a.failedBefore (· = .failure)
  rests : b.failedBefore = true → b.isLive = false
  turns : ∀ kind ∈ news, (kind = .failure ↔ a.failedBefore = false)
  distinct : a.listeners.Distinct → b.listeners.Distinct

theorem Outcome.of_silence (hcalls : b.listeners.calls = a.listeners.calls)
    (hfailed : b.failedBefore = a.failedBefore) (hrests : b.failedBefore = true → b.isLive = false)
    (hdistinct : a.listeners.Distinct → b.listeners.Distinct) : Outcome a b none :=
  ⟨by simp [hcalls], hfailed, hrests, by simp, hdistinct⟩

theorem isLive_eq_false_of_phase (h : a.phase ≠ .draining) : a.isLive = false := by
  simp [isLive, h]

/-- A live appender at work goes on or halts. -/
theorem Worked.outcome (h : a.Worked b) {move : Move} (hlive : a.isLive = true)
    (hfailed : a.failedBefore = false) (hopens : move.opens a = false)
    (hphase : (move.act a).phase = .failed ↔ b.phase = .failed)
    (hbefore : (move.act a).failedBefore = b.failedBefore)
    (hlisteners : (move.act a).listeners = b.listeners) :
    Outcome a (move.act a) (move.news a.failedBefore a) := by
  cases h with
  | stands h =>
    have hgoes : (move.act a).phase ≠ .failed := by
      rw [ne_eq, hphase, h.phase, (isLive_iff.1 hlive).2]
      simp
    have hnews : move.news a.failedBefore a = none := by simp [Move.news, Move.halts, hgoes, hopens]
    rw [hnews]
    have hsame : (move.act a).listeners = a.listeners := hlisteners.trans h.listeners
    exact .of_silence (by rw [hsame]) (hbefore.trans h.failedBefore)
      (by simp [hbefore, h.failedBefore, hfailed]) (by rw [hsame]; exact id)
  | halted e hhalted hnow htold =>
    have hfails : (move.act a).phase = .failed := hphase.2 hhalted
    have hnews : move.news a.failedBefore a = some .failure := by
      simp [Move.news, Move.halts, hlive, hfails]
    rw [hnews]
    exact {
      told := by rw [hlisteners, htold, Listeners.calls_notify]; simp [Notice.kind]
      failedBefore := by simp [hbefore, hnow]
      rests := fun _ => isLive_eq_false_of_phase (by simp [hfails])
      turns := by simp [hfailed]
      distinct := by rw [hlisteners, htold]; exact id }

/-- A move that neither works nor starts is not told of. -/
theorem outcome_of_still {move : Move} (hrests : a.failedBefore = true → a.isLive = false)
    (hopens : move.opens a = false) (hcalls : (move.act a).listeners.calls = a.listeners.calls)
    (hfailed : (move.act a).failedBefore = a.failedBefore)
    (hlive : (move.act a).isLive = true → a.isLive = true)
    (hphase : (move.act a).phase = .failed → a.phase = .failed)
    (hdistinct : a.listeners.Distinct → (move.act a).listeners.Distinct) :
    Outcome a (move.act a) (move.news a.failedBefore a) := by
  have hhalts : move.halts a = false := by
    simp only [Move.halts, Bool.and_eq_false_iff, decide_eq_false_iff_not]
    refine or_iff_not_imp_left.2 fun h hfails => ?_
    exact h (isLive_eq_false_of_phase (by simp [hphase hfails]))
  have hnews : move.news a.failedBefore a = none := by simp [Move.news, hhalts, hopens]
  rw [hnews]
  refine .of_silence hcalls hfailed (fun h => ?_) hdistinct
  rw [hfailed] at h
  exact Bool.eq_false_iff.2 fun hb => by simp [hlive hb] at hrests; simp [hrests] at h

theorem stop_outcome (hrests : a.failedBefore = true → a.isLive = false) :
    Outcome a (Move.stop.act a) (Move.stop.news a.failedBefore a) := by
  have hclosed (phase : AppenderPhase) :
      (if phase = .draining then AppenderPhase.closed else phase) = .failed ↔ phase = .failed := by
    cases phase <;> simp
  cases hlive : a.isLive with
  | false =>
    refine outcome_of_still hrests rfl ?_ ?_ ?_ ?_ ?_
    all_goals simp only [Move.act, stop, hlive]
    · rfl
    · rfl
    · simp [isLive]
    · exact (hclosed a.phase).1
    · exact id
  | true =>
    have hfailed : a.failedBefore = false := Bool.eq_false_iff.2 fun h => by simp [hrests h] at hlive
    refine (finishUp_worked a).outcome hlive hfailed rfl ?_ ?_ ?_
    all_goals simp only [Move.act, stop, hlive]
    · exact hclosed a.finishUp.phase
    · rfl
    · rfl

theorem announceRecovery_outcome (hfailed : b.failedBefore = a.failedBefore)
    (hlisteners : b.listeners = a.listeners) :
    Outcome a b.announceRecovery (if a.failedBefore then some .recovery else none) := by
  unfold announceRecovery
  rw [hfailed]
  cases h : a.failedBefore with
  | false =>
    exact .of_silence (by simp [hlisteners]) (by simp [hfailed]) (by simp [hfailed, h]) (by
      simp [hlisteners])
  | true =>
    exact {
      told := by simp [hlisteners, Listeners.calls_notify, Notice.kind]
      failedBefore := by simp
      rests := by simp
      turns := by simp [h]
      distinct := by rw [← hlisteners]; exact id }

theorem start_outcome (hrests : a.failedBefore = true → a.isLive = false) :
    Outcome a (Move.start.act a) (Move.start.news a.failedBefore a) := by
  generalize hrun : Appender.start.run a = run
  obtain ⟨r, b⟩ := run
  have hact : Move.start.act a = b := congrArg Prod.snd hrun
  have hopens : Move.start.opens a = r.toOption.isSome := by rw [Move.opens, hrun]
  obtain ⟨hlive, rfl, rfl⟩ | ⟨hidle, e, hdiscard, rfl⟩ | ⟨hidle, c, hdiscard, rfl, rfl⟩ :=
    start_cases hrun
  · have hfailed : b.failedBefore = false := Bool.eq_false_iff.2 fun h => by simp [hrests h] at hlive
    have hnews : Move.start.news b.failedBefore b = none := by
      simp [Move.news, Move.halts, hact, (isLive_iff.1 hlive).2, hfailed]
    rw [hact, hnews]
    exact .of_silence rfl rfl hrests id
  · have hstands := StandsAs.discardStale hdiscard
    refine outcome_of_still hrests hopens ?_ ?_ ?_ ?_ ?_
    all_goals rw [hact]
    · rw [hstands.listeners]
    · exact hstands.failedBefore
    · rw [hstands.isLive]
      simp [isLive]
    · exact fun h => hstands.phase.symm.trans h
    · rw [hstands.listeners]
      exact id
  · have hstands := StandsAs.discardStale hdiscard
    have hnews : Move.start.news a.failedBefore a = if a.failedBefore then some .recovery else none := by
      simp [Move.news, Move.halts, hidle, hopens, Except.toOption]
    rw [hact, hnews]
    exact announceRecovery_outcome hstands.failedBefore hstands.listeners

theorem outcome_of_stands {move : Move} (hrests : a.failedBefore = true → a.isLive = false)
    (hopens : move.opens a = false) (h : a.StandsAs (move.act a)) :
    Outcome a (move.act a) (move.news a.failedBefore a) := by
  refine outcome_of_still hrests hopens ?_ h.failedBefore ?_ ?_ ?_
  · rw [h.listeners]
  · rw [h.isLive]
    exact id
  · rw [h.phase]
    exact id
  · rw [h.listeners]
    exact id

theorem act_outcome (hrests : a.failedBefore = true → a.isLive = false) (move : Move) :
    Outcome a (move.act a) (move.news a.failedBefore a) := by
  have hfailed (hlive : a.isLive = true) : a.failedBefore = false :=
    Bool.eq_false_iff.2 fun h => by simp [hrests h] at hlive
  cases move with
  | start => exact start_outcome hrests
  | stop => exact stop_outcome hrests
  | cycle =>
    cases hlive : a.isLive with
    | false => exact outcome_of_stands hrests rfl (.of_eq (cycle_of_idle hlive))
    | true => exact (cycle_worked a).outcome hlive (hfailed hlive) rfl .rfl rfl rfl
  | wake =>
    cases hlive : a.isLive with
    | false => exact outcome_of_stands hrests rfl (.of_eq (wake_of_idle hlive))
    | true => exact (wake_worked a).outcome hlive (hfailed hlive) rfl .rfl rfl rfl
  | discardStale =>
    exact outcome_of_stands hrests rfl (.discardStale (Prod.eta (Appender.discardStale.run a)).symm)
  | resetFailure =>
    refine outcome_of_still hrests rfl ?_ ?_ ?_ ?_ ?_
    all_goals simp only [Move.act, resetFailure]; split
    all_goals simp [isLive]
  | moveTo position =>
    refine outcome_of_still hrests rfl ?_ ?_ ?_ ?_ ?_
    all_goals simp only [Move.act, Attempt.run, Appender.moveTo]; split
    all_goals simp [isLive]
  | register listener =>
    refine outcome_of_still hrests rfl ?_ rfl id id (·.register listener)
    simp only [Move.act, Listeners.register]
    split
    · rfl
    · rfl
  | remove key => exact outcome_of_still hrests rfl rfl rfl id id (·.remove key)
  | elsewhere log buffer =>
    refine outcome_of_still hrests rfl ?_ ?_ ?_ ?_ ?_
    all_goals simp only [Move.act]; split
    all_goals simp [isLive]

/-! ## A run -/
/-- What is written down is what was told. -/
structure Watch.Tells (w : Watch) : Prop where
  failedBefore : w.appender.failedBefore = w.isHalted
  rests : w.isHalted = true → w.appender.isLive = false
  told : w.appender.listeners.calls = w.calls
  alternate : Notice.Kind.Alternate w.news
  last : w.isHalted = true ↔ w.news.getLast? = some .failure
  distinct : w.appender.listeners.Distinct

theorem Watch.Tells.step {w : Watch} (h : w.Tells) (move : Move) : (w.step move).Tells := by
  have hrests := h.rests
  rw [← h.failedBefore] at hrests
  have houtcome := act_outcome hrests move
  rw [h.failedBefore] at houtcome
  unfold Watch.step
  generalize move.news w.isHalted w.appender = news at houtcome
  have hfailed : (move.act w.appender).failedBefore = news.elim w.isHalted (· = .failure) := by
    rw [houtcome.failedBefore, h.failedBefore]
  have hturns := houtcome.turns
  rw [h.failedBefore] at hturns
  refine ⟨hfailed, ?_, ?_, ?_, ?_, houtcome.distinct h.distinct⟩
  · intro hhalted
    exact houtcome.rests (hfailed.trans hhalted)
  · dsimp only
    rw [houtcome.told, h.told]
  · cases news with
    | none => simpa using h.alternate
    | some kind =>
      refine h.alternate.concat ?_
      rw [hturns kind rfl, ← Bool.not_eq_true, h.last]
  · cases news with
    | none => simpa using h.last
    | some kind => simp

theorem tells_watched (h : ({ appender := a } : Watch).Tells) (moves : List Move) :
    (a.watched moves).Tells := by
  induction moves using List.reverseRecOn with
  | nil => exact h
  | append_singleton moves move ih =>
    rw [watched_concat]
    exact ih.step move

/-- The appender was never started, and nobody was told of anything. -/
structure Unstarted (a : Appender) : Prop where
  rests : a.isRunning = false
  unfailed : a.failedBefore = false
  untold : a.listeners.delivered = []
  distinct : a.listeners.Distinct

theorem Unstarted.tells (h : a.Unstarted) : ({ appender := a } : Watch).Tells where
  failedBefore := h.unfailed
  rests := by simp
  told := by simp [Listeners.calls, h.untold]
  alternate := ⟨by simp, .nil⟩
  last := by simp
  distinct := h.distinct

/-- The listener is registered before and after every move. -/
def StaysRegistered (a : Appender) (moves : List Move) (listener : Listener) : Prop :=
  ∀ earlier, earlier <+: moves → listener ∈ (a.after earlier).listeners.registered

theorem told_alike {moves : List Move} (h : ({ appender := a } : Watch).Tells) {listener : Listener}
    (hstays : a.StaysRegistered moves listener) :
    ((a.watched moves).calls.filter (·.1 = listener)).map Prod.snd = (a.watched moves).news := by
  induction moves using List.reverseRecOn with
  | nil => rfl
  | append_singleton moves move ih =>
    have hbefore := ih fun earlier hearlier => hstays earlier (hearlier.trans (List.prefix_append ..))
    have hone : (a.watched moves).appender.listeners.registered.filter (· = listener) = [listener] := by
      refine (tells_watched h moves).distinct.filter_eq ?_
      rw [appender_watched]
      exact hstays moves (List.prefix_append ..)
    rw [watched_concat]
    unfold Watch.step
    dsimp only
    rw [List.filter_append, List.map_append, hbefore]
    congr 1
    cases move.news (a.watched moves).isHalted (a.watched moves).appender with
    | none => rfl
    | some kind => simp [List.filter_map, Function.comp_def, hone]

/-! ## Idling -/

def Move.isElsewhere : Move → Bool
  | .elsewhere _ _ => true
  | _ => false

/-- The log is as it was, or a start, or the owner before one, tried to discard a stale block. -/
def DiscardsAtMost (a : Appender) (move : Move) : Prop :=
  (move.act a).log = a.log ∨ ((move = .start ∨ move = .discardStale) ∧ ∃ address,
    a.staleBlock = some address ∧ (move.act a).log
      = { a.log with storage := ((Storage.truncate address).run a.log.storage).2 })

/-- The move gives out no position, frees no slot, and neither appends nor flushes anything; at most
it discards a stale block. The owner may set the position. -/
structure Idle (a : Appender) (move : Move) : Prop where
  position : (move.act a).nextPosition = a.nextPosition ∨
    ∃ position, move = .moveTo position ∧ (move.act a).nextPosition = position
  buffer : move.isElsewhere = false → (move.act a).buffer = a.buffer
  log : move.isElsewhere = false → a.DiscardsAtMost move
  uncalled : move.isElsewhere = false → ∀ call, call ≠ .truncate →
    (move.act a).log.storage.faults call = a.log.storage.faults call

theorem DiscardsAtMost.uncalled {move : Move} (h : a.DiscardsAtMost move) {call : StorageCall}
    (hcall : call ≠ .truncate) :
    (move.act a).log.storage.faults call = a.log.storage.faults call := by
  obtain hlog | ⟨-, address, -, hlog⟩ := h
  · rw [hlog]
  · rw [hlog]
    dsimp only
    rw [Storage.truncate_faults (Prod.eta _).symm]
    exact if_neg hcall

theorem Idle.of_log {move : Move} (hposition : (move.act a).nextPosition = a.nextPosition)
    (hbuffer : (move.act a).buffer = a.buffer) (hlog : a.DiscardsAtMost move) : a.Idle move :=
  ⟨.inl hposition, fun _ => hbuffer, fun _ => hlog, fun _ _ => hlog.uncalled⟩

theorem Idle.of_same {move : Move} (hposition : (move.act a).nextPosition = a.nextPosition)
    (hbuffer : (move.act a).buffer = a.buffer) (hlog : (move.act a).log = a.log) : a.Idle move :=
  .of_log hposition hbuffer (.inl hlog)

/-- Discarding a stale block is the one storage call that it takes. -/
theorem discardStale_leaves {r : Except LogError Unit} (h : discardStale.run a = (r, b)) :
    b.nextPosition = a.nextPosition ∧ b.buffer = a.buffer ∧
      (b.log = a.log ∨ ∃ address, a.staleBlock = some address ∧ b.log
        = { a.log with storage := ((Storage.truncate address).run a.log.storage).2 }) := by
  obtain ⟨-, -, rfl⟩ | ⟨address, t, hstale, ⟨ht, -, rfl⟩ | ⟨e, ht, -, rfl⟩⟩ := discardStale_cases h
  · exact ⟨rfl, rfl, .inl rfl⟩
  · exact ⟨rfl, rfl, .inr ⟨address, hstale, by rw [ht]; rfl⟩⟩
  · exact ⟨rfl, rfl, .inr ⟨address, hstale, by rw [ht]; rfl⟩⟩

/-- An appender that is not live is idle, until it is started. -/
theorem idle_of_not_live (hlive : a.isLive = false) {move : Move} (hopens : move.opens a = false) :
    a.Idle move := by
  cases move with
  | start =>
    generalize hrun : Appender.start.run a = run
    obtain ⟨r, b⟩ := run
    have hact : Move.start.act a = b := congrArg Prod.snd hrun
    obtain ⟨hlive', -, -⟩ | ⟨-, e, hdiscard, -⟩ | ⟨-, c, -, rfl, -⟩ := start_cases hrun
    · simp [hlive'] at hlive
    · obtain ⟨hposition, hbuffer, hlog⟩ := discardStale_leaves hdiscard
      rw [← hact] at hposition hbuffer hlog
      exact .of_log hposition hbuffer (hlog.imp_right fun h => ⟨.inl rfl, h⟩)
    · rw [Move.opens, hrun] at hopens
      simp [Except.toOption] at hopens
  | stop =>
    refine .of_same ?_ ?_ ?_
    all_goals simp only [Move.act, stop, hlive]
    all_goals rfl
  | cycle =>
    have hact : Move.cycle.act a = a := cycle_of_idle hlive
    exact .of_same (by rw [hact]) (by rw [hact]) (by rw [hact])
  | wake =>
    have hact : Move.wake.act a = a := wake_of_idle hlive
    exact .of_same (by rw [hact]) (by rw [hact]) (by rw [hact])
  | discardStale =>
    obtain ⟨hposition, hbuffer, hlog⟩ :=
      discardStale_leaves (Prod.eta (Appender.discardStale.run a)).symm
    exact .of_log hposition hbuffer (hlog.imp_right fun h => ⟨.inr rfl, h⟩)
  | resetFailure =>
    refine .of_same ?_ ?_ ?_
    all_goals simp only [Move.act, resetFailure]; split
    all_goals rfl
  | moveTo position =>
    generalize hrun : (Appender.moveTo position).run a = run
    obtain ⟨r, b⟩ := run
    have hact : (Move.moveTo position).act a = b := congrArg Prod.snd hrun
    unfold Attempt.run Appender.moveTo at hrun
    split at hrun
    · simp only [Prod.mk.injEq] at hrun
      rw [← hrun.2] at hact
      exact .of_same (by rw [hact]) (by rw [hact]) (by rw [hact])
    · simp only [Prod.mk.injEq] at hrun
      rw [← hrun.2] at hact
      have hlog : ((Move.moveTo position).act a).log = a.log := by rw [hact]
      exact ⟨.inr ⟨position, rfl, by rw [hact]⟩, fun _ => by rw [hact], fun _ => .inl hlog,
        fun _ _ _ => by rw [hlog]⟩
  | register listener => exact .of_same rfl rfl rfl
  | remove key => exact .of_same rfl rfl rfl
  | elsewhere log buffer =>
    refine ⟨.inl ?_, by simp [Move.isElsewhere], by simp [Move.isElsewhere],
      by simp [Move.isElsewhere]⟩
    simp only [Move.act]
    split
    · rfl
    · rfl

/-- Every notice is what there was to tell, in the order in which the listeners were registered, and what
a listener hears throughout a run are a failure for each halt and a recovery for the first start after
it, in turns. Until that start a halted appender is idle. -/
theorem halts_are_told (h : a.Unstarted) (moves : List Move) :
    (a.after moves).listeners.calls = (a.watched moves).calls ∧
      Notice.Kind.Alternate (a.watched moves).news ∧
      (∀ listener, a.StaysRegistered moves listener →
        (a.after moves).listeners.toldTo listener = (a.watched moves).news) ∧
      ((a.watched moves).isHalted = true → (a.after moves).isLive = false ∧
        ∀ move : Move, move.opens (a.after moves) = false → (a.after moves).Idle move) := by
  have htells := tells_watched h.tells moves
  have htold := htells.told
  have hrests := htells.rests
  rw [appender_watched] at htold hrests
  refine ⟨htold, htells.alternate, fun listener hstays => ?_, fun hhalted => ⟨hrests hhalted, ?_⟩⟩
  · rw [Listeners.toldTo, htold]
    exact told_alike h.tells hstays
  · exact fun move hopens => idle_of_not_live (hrests hhalted) hopens

/-- The first append fails. -/
def stumblingAppender : Appender where
  log := {
    storage := {
      medium := .memory true [] 0
      faults := FaultPlan.none.set .append (.failFirst 1) }
    sampling := ⟨1, 64, none, true, none⟩ }
  buffer := {
    capacity := 64, maxFragment := 8, slots := [⟨0, 24, .committed [1, 2]⟩], tail := 24, nextSlot := 1 }
  listeners := { registered := [⟨.observer "first", none⟩, ⟨.observer "second", none⟩] }
  maxBlock := 64

theorem halts_are_told_stumbling :
    stumblingAppender.Unstarted ∧
      stumblingAppender.StaysRegistered [.start, .cycle, .cycle, .stop, .start, .cycle]
        ⟨.observer "second", none⟩ ∧
      (stumblingAppender.after [.start, .cycle, .cycle, .stop, .start, .cycle]).listeners.toldTo
        ⟨.observer "second", none⟩ = [.failure, .recovery] := by
  have hunstarted : stumblingAppender.Unstarted := ⟨rfl, rfl, rfl, by decide⟩
  have hstays : stumblingAppender.StaysRegistered [.start, .cycle, .cycle, .stop, .start, .cycle]
      ⟨.observer "second", none⟩ := by
    intro earlier hearlier
    rw [← List.mem_inits] at hearlier
    revert earlier
    decide +kernel
  refine ⟨hunstarted, hstays, ?_⟩
  rw [(halts_are_told hunstarted _).2.2.1 _ hstays]
  decide +kernel

end Appender
end PartitionLog
