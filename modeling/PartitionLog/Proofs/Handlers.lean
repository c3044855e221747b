import PartitionLog.Proofs.Drain
import PartitionLog.Proofs.Reopening
import PartitionLog.Stream

/-!
# What the handlers of a stream keep

Every part of a lifecycle command changes the appender of a stream only, apart from the state, and
keeps what the appender keeps. `startUp` recovers the log and settles the appender, or fails and
leaves it stopped (`startUp_spec`); `truncate` cuts a settled log between two records beyond the
commit position, or leaves it as it is (`truncate_spec`).
-/

namespace PartitionLog

namespace Appender

variable {strict : Prop} {a b : Appender} {payloads : List Bytes}

theorem start_of_none (hnone : a.staleBlock = none) : ∃ b, start.run a = (.ok (), b) := by
  unfold Attempt.run start
  split
  · exact ⟨_, rfl⟩
  · have hdiscard : discardStale.run { a with isRunning := false }
        = (.ok (), { a with isRunning := false }) := by
      unfold Attempt.run discardStale
      simp only [hnone]
    rw [hdiscard]
    exact ⟨_, rfl⟩

/-- Forgetting a halt and taking claims again changes nothing that matters. -/
theorem Kept.same_reset (hk : a.Kept strict payloads) (hnone : a.staleBlock = none) :
    a.Same { a.resetFailure with buffer := a.resetFailure.buffer.reopen } ∧
      a.resetFailure.staleBlock = none := by
  unfold resetFailure
  split
  · exact ⟨hk.same_flags rfl rfl rfl rfl rfl fun h => absurd hnone h, hnone⟩
  · exact ⟨hk.same_flags rfl rfl rfl rfl rfl fun h => absurd hnone h, hnone⟩

/-- What starting up a stream does to its appender. -/
def StartedUp (strict : Prop) (a : Appender) (commit : Int) (payloads : List Bytes) :
    Except LogError Unit → Appender → Prop
  | .error _, b => b.Kept strict payloads ∧ b.isRunning = false ∧
      (b.stored = a.stored ∨ b.stored = a.visible)
  | .ok (), b => ∃ after, payloads <+: after ∧ (strict → after = payloads) ∧
      b.Kept strict after ∧ b.Settled after ∧
      ((Frame.walk a.visible 0).2 = none ∨
        commit < ((Frame.walk a.visible 0).1.getLast?.map Record.nextPosition).getD 0)

end Appender

namespace LogStream

variable {s t : LogStream} {α : Type} {strict : Prop} {payloads : List Bytes}

theorem onAppender_cases {x : Attempt Appender α} {r : Except LogError α}
    (h : (onAppender x).run s = (r, t)) :
    ∃ a, x.run s.appender = (r, a) ∧ t = { s with appender := a } := by
  unfold Attempt.run onAppender Attempt.within at h
  simp only [Prod.mk.injEq] at h
  obtain ⟨hr, rfl⟩ := h
  exact ⟨_, Prod.ext hr rfl, rfl⟩

theorem onStorage_cases {x : Attempt Storage α} {r : Except LogError α}
    (h : (onStorage x).run s = (r, t)) :
    ∃ u, x.run s.storage = (r, u) ∧ t = s.withStorage u := by
  obtain ⟨a, ha, rfl⟩ := onAppender_cases h
  obtain ⟨u, hu, rfl⟩ := Appender.onStorage_cases ha
  exact ⟨u, hu, rfl⟩

/-! ## Opening -/

theorem openStorage_spec (hk : s.appender.Kept strict payloads) {r : Except LogError Unit}
    (h : openStorage.run s = (r, t)) : ∃ u, s.storage.Keeps u ∧ t = s.withStorage u := by
  unfold Attempt.run openStorage at h
  split at h
  · simp only [Prod.mk.injEq] at h
    obtain ⟨-, rfl⟩ := h
    exact ⟨s.storage, ⟨hk.sound, rfl⟩, rfl⟩
  · obtain ⟨u, hu, rfl⟩ := onStorage_cases h
    exact ⟨u, Storage.openUp_keeps hk.sound hu, rfl⟩

theorem run_moveTo (hrests : s.appender.isRunning = false) (position : Int) :
    (onAppender (Appender.moveTo position)).run s
      = (.ok (), { s with appender := { s.appender with nextPosition := position } }) := by
  unfold Attempt.run onAppender Attempt.within Appender.moveTo
  simp [hrests]

/-- What starting up does once the log is recovered: it moves the appender behind the log, takes
claims again and starts, none of which can fail. -/
def takeOff (position : Int) : Attempt LogStream Unit := do
  onAppender (Appender.moveTo position)
  .modify fun s => (s.withAppender Appender.resetFailure).withBuffer WriteBuffer.reopen
  if !(← .get).config.appenderDisabled then onAppender Appender.start

theorem takeOff_spec (hk : s.appender.Kept strict payloads)
    (hrests : s.appender.isRunning = false) (hnone : s.appender.staleBlock = none)
    {position : Int} {r : Except LogError Unit} (h : (takeOff position).run s = (r, t)) :
    ∃ b, t = { s with appender := b } ∧
      { s.appender with nextPosition := position }.Same b ∧ r = .ok () := by
  rw [takeOff, Attempt.run_bind_ok (run_moveTo hrests position), Attempt.run_bind,
    Attempt.run_modify] at h
  dsimp only at h
  rw [Attempt.run_bind, Attempt.run_get] at h
  dsimp only at h
  have hmoved : Appender.Kept strict { s.appender with nextPosition := position } payloads :=
    { hk with }
  obtain ⟨c, hc, hreset, hcnone⟩ : ∃ c : Appender,
      (({ s with appender := { s.appender with nextPosition := position } } :
        LogStream).withAppender Appender.resetFailure).withBuffer WriteBuffer.reopen
          = { s with appender := c } ∧
      Appender.Same { s.appender with nextPosition := position } c ∧ c.staleBlock = none := by
    exact ⟨_, rfl, hmoved.same_reset hnone⟩
  rw [hc] at h
  split at h
  · obtain ⟨b, hb, rfl⟩ := onAppender_cases h
    obtain ⟨b', hok⟩ := Appender.start_of_none hcnone
    obtain ⟨rfl, rfl⟩ : .ok () = r ∧ b' = b := by rw [← Prod.mk.injEq, ← hok, ← hb]
    exact ⟨b', rfl, hreset.trans (Appender.start_spec (hmoved.same hreset) hok), rfl⟩
  · simp only [Attempt.run_pure, Prod.mk.injEq] at h
    obtain ⟨rfl, rfl⟩ := h
    exact ⟨c, rfl, hreset, rfl⟩

theorem startUp_spec (hk : s.appender.Kept strict payloads)
    (hrests : s.appender.isRunning = false) (hsize : s.storage.stored.length < 2 ^ 63)
    {r : Except LogError Unit} (h : startUp.run s = (r, t)) :
    ∃ b, t = { s with appender := b } ∧ b.buffer.slots = s.buffer.slots ∧
      b.buffer.nextSlot = s.buffer.nextSlot ∧
      s.appender.StartedUp strict s.commit payloads r b := by
  rw [startUp, Attempt.run_bind] at h
  split at h
  · next _ u hu =>
    obtain ⟨a, ha, rfl⟩ := onAppender_cases hu
    obtain ⟨hsame, hnone, hrunning, hstored⟩ := Appender.discardStale_spec hk ha
    rw [Attempt.run_bind, Attempt.run_get] at h
    dsimp only at h
    rw [Attempt.run_bind] at h
    have hka := hk.same hsame
    have hshorter : a.stored.length < 2 ^ 63 := by
      refine Nat.lt_of_le_of_lt ?_ hsize
      rcases hstored with hstored | hstored
      · rw [hstored]
        exact Nat.le_refl _
      · rw [hstored]
        exact s.appender.visible_isPrefix.length_le
    split at h
    · next found v hv =>
      obtain ⟨c, hc, rfl⟩ := onAppender_cases hv
      obtain ⟨log, hlog, rfl⟩ := Appender.onLog_cases hc
      obtain ⟨after, hmore, hsame', hkept, hall, hnext, hbelow, hexpected, hcommit⟩ :=
        hka.recover_ok (hnone rfl) hshorter hlog
      obtain ⟨b, rfl, hb, rfl⟩ := takeOff_spec hkept (hrunning.trans hrests) (hnone rfl) h
      refine ⟨b, rfl, hb.slots.trans hsame.slots, hb.nextSlot.trans hsame.nextSlot, after, hmore,
        hsame', ?_, ?_, ?_⟩
      · exact Appender.Kept.same (a := { a with log := log, nextPosition := found.nextPosition })
          { hkept with } hb
      · refine Appender.Settled.same ⟨?_, hnext, ?_⟩ hb
        · exact Eq.trans (Appender.visible_of_none (by exact hnone rfl)) hall
        · have hvisible : ({ a with log := log, nextPosition := found.nextPosition } :
              Appender).visible = log.storage.stored :=
            Appender.visible_of_none (by exact hnone rfl)
          rw [hvisible]
          exact hbelow
      · have hread : a.stored = s.appender.visible := by
          rw [← Appender.visible_of_none (hnone rfl), hsame.visible]
        rw [← hread, ← hexpected]
        exact hcommit
    · next e v hv =>
      obtain ⟨c, hc, rfl⟩ := onAppender_cases hv
      obtain ⟨log, hlog, rfl⟩ := Appender.onLog_cases hc
      simp only [Prod.mk.injEq] at h
      obtain ⟨rfl, rfl⟩ := h
      obtain ⟨hkept, hleft⟩ := hka.recover_error (hnone rfl) hshorter hlog
      refine ⟨_, rfl, hsame.slots, hsame.nextSlot, hkept, hrunning.trans hrests, ?_⟩
      exact hstored.imp hleft.trans hleft.trans
  · next e u hu =>
    obtain ⟨a, ha, rfl⟩ := onAppender_cases hu
    simp only [Prod.mk.injEq] at h
    obtain ⟨rfl, rfl⟩ := h
    obtain ⟨hsame, -, hrunning, hstored⟩ := Appender.discardStale_spec hk ha
    exact ⟨a, rfl, hsame.slots, hsame.nextSlot, hk.same hsame, hrunning.trans hrests, hstored⟩

/-! ## Closing -/

/-- Without a snapshot, saving the index changes nothing but that it is not open any more. -/
theorem persist_spec (hunsaved : s.appender.log.sampling.snapshotPath = none)
    {r : Except LogError Unit}
    (h : (onAppender (Appender.onLog IndexedLog.persist)).run s = (r, t)) :
    ∃ isOpen, r = .ok () ∧ t = { s with appender := { s.appender with log := { s.appender.log with
      sampling := { s.appender.log.sampling with isOpen := isOpen } } } } := by
  obtain ⟨a, ha, rfl⟩ := onAppender_cases h
  obtain ⟨log, hlog, rfl⟩ := Appender.onLog_cases ha
  unfold Attempt.run IndexedLog.persist at hlog
  split at hlog
  · simp only [Prod.mk.injEq] at hlog
    obtain ⟨rfl, rfl⟩ := hlog
    exact ⟨s.appender.log.sampling.isOpen, rfl, rfl⟩
  · dsimp only at hlog
    split at hlog
    · simp only [Prod.mk.injEq] at hlog
      obtain ⟨rfl, rfl⟩ := hlog
      exact ⟨false, rfl, rfl⟩
    · next path hpath =>
      rw [hunsaved] at hpath
      simp at hpath

/-- Without a snapshot nothing is left to do once the appender is stopped. -/
theorem windDown_unsaved (hunsaved : s.settleClaims.2.appender.log.sampling.snapshotPath = none) :
    ∃ isOpen, s.windDown.2 = { s.settleClaims.2 with appender := { s.settleClaims.2.appender with
      log := { s.settleClaims.2.appender.log with
        sampling := { s.settleClaims.2.appender.log.sampling with isOpen := isOpen } } } } := by
  generalize hsaved : (onAppender (Appender.onLog IndexedLog.persist)).run s.settleClaims.2 = saved
  obtain ⟨r, t⟩ := saved
  obtain ⟨isOpen, -, rfl⟩ := persist_spec hunsaved hsaved
  refine ⟨isOpen, ?_⟩
  unfold windDown
  exact congrArg Prod.snd hsaved

theorem closeStorage_eq (s : LogStream) : s.closeStorage.2
    = { s.withStorage (Storage.close.run s.storage).2 with state := .closed } := rfl

theorem closeStorage_spec (hk : s.appender.Kept strict payloads) :
    ∃ u, s.storage.Keeps u ∧ s.closeStorage.2 = { s.withStorage u with state := .closed } :=
  ⟨_, Storage.close_keeps hk.sound (Prod.eta (Storage.close.run s.storage)).symm, closeStorage_eq s⟩

/-! ## Truncating -/

theorem allowTruncate_ok {position : Int} (h : s.allowTruncate position = .ok ()) :
    s.appender.isRunning = false ∧ s.state = .opened ∧ s.commit < position ∧
      s.buffer.slots = [] := by
  unfold allowTruncate ensureOpen at h
  split at h
  · simp at h
  · next hrests =>
    split at h
    · simp at h
    · next hopen =>
      split at hopen
      · next hstate =>
        split at h
        · simp at h
        · next hcommit =>
          split at h
          · simp at h
          · next hempty =>
            refine ⟨by simpa using hrests, hstate, by omega, ?_⟩
            simpa [WriteBuffer.isEmpty] using hempty
      · simp at hopen

theorem addressOf_cases {position : Int} {r : Except LogError Nat}
    (h : (addressOf position).run s = (r, t)) :
    ∃ answer rs, (Reading.findAddress s.index position).run (s.reading s.newReader) = (answer, rs) ∧
      t = s.withStorage rs.storage ∧ ∀ address, r = .ok address ↔ answer = .ok (some address) := by
  unfold Attempt.run addressOf at h
  generalize hfind : (Reading.findAddress s.index position).run (s.reading s.newReader) = found at h
  obtain ⟨answer, rs⟩ := found
  refine ⟨answer, rs, rfl, ?_⟩
  split at h
  all_goals
    next hfound =>
      simp only [Prod.mk.injEq] at h hfound
      obtain ⟨rfl, rfl⟩ := h
      obtain ⟨rfl, rfl⟩ := hfound
      simp

/-- The stream after its log was cut at a position, whose record was at this address. -/
def cutTo (s : LogStream) (position : Int) (address : Nat) (storage : Storage) : LogStream :=
  (s.withStorage storage).withAppender fun a =>
    { a with log := a.log.forget position address, nextPosition := position }

/-- How a truncation ends: it is not allowed, no record is found, the storage is not cut, or all is
done. -/
inductive Truncation (s : LogStream) (position : Int) : Except LogError Unit → LogStream → Prop
  | refused {e : LogError} (hallow : s.allowTruncate position = .error e) :
    Truncation s position (.error e) s
  | missed {e : LogError} {t : LogStream} (hallow : s.allowTruncate position = .ok ())
    (hfound : (addressOf position).run s = (.error e, t)) : Truncation s position (.error e) t
  | uncut {e : LogError} {t : LogStream} {address : Nat} {storage : Storage}
    (hallow : s.allowTruncate position = .ok ())
    (hfound : (addressOf position).run s = (.ok address, t))
    (hcut : (Storage.truncate address).run t.storage = (.error e, storage)) :
    Truncation s position (.error e) (t.withStorage storage)
  | cut {t : LogStream} {address : Nat} {storage : Storage}
    (hallow : s.allowTruncate position = .ok ())
    (hfound : (addressOf position).run s = (.ok address, t))
    (hcut : (Storage.truncate address).run t.storage = (.ok (), storage)) :
    Truncation s position (.ok ()) (t.cutTo position address storage)

theorem truncate_cases {position : Int} {r : Except LogError Unit}
    (h : (truncate position).run s = (r, t)) : s.Truncation position r t := by
  rw [truncate, Attempt.run_bind, Attempt.run_get] at h
  dsimp only at h
  rw [Attempt.run_bind, Reading.run_ofExcept] at h
  cases hallow : s.allowTruncate position with
  | error e =>
    simp only [hallow, Prod.mk.injEq] at h
    obtain ⟨rfl, rfl⟩ := h
    exact .refused hallow
  | ok =>
    simp only [hallow] at h
    rw [Attempt.run_bind] at h
    generalize hfound : (addressOf position).run s = found at h
    obtain ⟨place, u⟩ := found
    cases place with
    | error e =>
      simp only [Prod.mk.injEq] at h
      obtain ⟨rfl, rfl⟩ := h
      exact .missed hallow hfound
    | ok address =>
      obtain ⟨answer, rs, -, rfl, -⟩ := addressOf_cases hfound
      dsimp only at h
      rw [Attempt.run_bind] at h
      generalize hcut : (onStorage (Storage.truncate address)).run (s.withStorage rs.storage)
        = cut at h
      obtain ⟨outcome, v⟩ := cut
      obtain ⟨storage, hstorage, rfl⟩ := onStorage_cases hcut
      cases outcome with
      | error e =>
        simp only [Prod.mk.injEq] at h
        obtain ⟨rfl, rfl⟩ := h
        exact .uncut hallow hfound hstorage
      | ok =>
        dsimp only at h
        rw [Attempt.run_bind_ok (Attempt.run_modify _ _),
          run_moveTo (by exact (allowTruncate_ok hallow).1)] at h
        simp only [Prod.mk.injEq] at h
        obtain ⟨rfl, rfl⟩ := h
        exact .cut (t := s.withStorage rs.storage) hallow hfound hstorage

/-- A position up to the commit position is never truncated at. -/
theorem truncate_committed {position : Int} (h : position ≤ s.commit) :
    ∃ e, (truncate position).run s = (.error e, s) := by
  have hrefused : ∃ e, s.allowTruncate position = .error e := by
    cases hallow : s.allowTruncate position with
    | error e => exact ⟨e, rfl⟩
    | ok =>
      have := (allowTruncate_ok hallow).2.2.1
      omega
  obtain ⟨e, he⟩ := hrefused
  refine ⟨e, ?_⟩
  rw [truncate, Attempt.run_bind, Attempt.run_get]
  dsimp only
  rw [he]
  rfl

/-- What truncating at a position does to the appender of a stream. -/
def TruncatedAt (strict : Prop) (s : LogStream) (position : Int) (payloads : List Bytes) :
    Except LogError Unit → Appender → Prop
  | .error _, b => s.appender.Same b ∧ b.isRunning = s.appender.isRunning
  | .ok (), b => s.state = .opened ∧ s.commit < position ∧ s.buffer.slots = [] ∧
      b.buffer = s.buffer ∧ ∃ kept cut, payloads = kept ++ cut ∧ Frame.span kept = position ∧
        b.Kept strict kept ∧ b.Settled kept ∧ b.stored = Frame.encodeRun 0 kept

theorem addressOf_spec (hk : s.appender.Kept strict payloads) (hs : s.appender.Settled payloads)
    (hnone : s.appender.staleBlock = none) (hsize : s.storage.stored.length < 2 ^ 63)
    {position : Int} {r : Except LogError Nat} (h : (addressOf position).run s = (r, t)) :
    ∃ u, s.storage.Keeps u ∧ t = s.withStorage u ∧ ∀ address, r = .ok address →
      ∃ kept cut, payloads = kept ++ cut ∧ Frame.span kept = position ∧
        address = (Frame.encodeRun 0 kept).length := by
  obtain ⟨answer, rs, hfind, rfl, hplace⟩ := addressOf_cases h
  obtain ⟨hkeeps, hfound⟩ := hs.findAddress hk hnone hsize hfind
  exact ⟨rs.storage, hkeeps, rfl, fun address haddress => hfound address ((hplace address).1 haddress)⟩

/-- An appender with an empty buffer has no stale block and is not jammed. -/
theorem settled_of_empty {a : Appender} (hk : a.Kept strict payloads) (hr : a.Ready payloads)
    (hempty : a.buffer.slots = []) : a.Settled payloads ∧ a.staleBlock = none := by
  constructor
  · rcases hr with hr | hr
    · exact hr
    · exact absurd hempty hr.drainable.ne_nil
  · cases hstale : a.staleBlock with
    | none => rfl
    | some address => exact absurd hempty (hk.stale address hstale).2.drainable.ne_nil

theorem truncate_spec (hk : s.appender.Kept strict payloads)
    (hr : s.state = .opened → s.appender.Ready payloads)
    (hsize : s.storage.stored.length < 2 ^ 63) {position : Int} {r : Except LogError Unit}
    (h : (truncate position).run s = (r, t)) :
    ∃ b, t = { s with appender := b } ∧ s.TruncatedAt strict position payloads r b := by
  cases truncate_cases h with
  | refused => exact ⟨s.appender, rfl, hk.same_flags rfl rfl rfl rfl rfl fun _ => id, rfl⟩
  | missed hallow hfind =>
    obtain ⟨-, hopen, -, hempty⟩ := allowTruncate_ok hallow
    obtain ⟨hsettled, hnone⟩ := settled_of_empty hk (hr hopen) hempty
    obtain ⟨found, hkeeps, rfl, -⟩ := addressOf_spec hk hsettled hnone hsize hfind
    exact ⟨_, rfl, hk.same_storage hkeeps, rfl⟩
  | uncut hallow hfind hcut =>
    obtain ⟨-, hopen, -, hempty⟩ := allowTruncate_ok hallow
    obtain ⟨hsettled, hnone⟩ := settled_of_empty hk (hr hopen) hempty
    obtain ⟨found, hkeeps, rfl, -⟩ := addressOf_spec hk hsettled hnone hsize hfind
    have hsame : s.appender.Same (s.withStorage found).appender := hk.same_storage hkeeps
    exact ⟨_, rfl, hsame.trans ((hk.same hsame).same_storage
      (Storage.truncate_error hkeeps.1 hcut)), rfl⟩
  | @cut u address after hallow hfind hcut =>
    obtain ⟨-, hopen, hcommit, hempty⟩ := allowTruncate_ok hallow
    obtain ⟨hsettled, hnone⟩ := settled_of_empty hk (hr hopen) hempty
    obtain ⟨found, hkeeps, rfl, hfound⟩ := addressOf_spec hk hsettled hnone hsize hfind
    obtain ⟨kept, gone, rfl, hposition, rfl⟩ := hfound address rfl
    obtain ⟨hsound, -, hcut⟩ := Storage.truncate_ok hkeeps.1 hcut
    have hstored : after.stored = s.appender.stored.take (Frame.encodeRun 0 kept).length := by
      rw [hcut]
      exact congrArg (List.take (Frame.encodeRun 0 kept).length) hkeeps.2
    obtain ⟨hkept, hafter⟩ := hk.cut hsettled hnone hsound hstored position rfl
    subst hposition
    refine ⟨_, rfl, hopen, hcommit, hempty, rfl, kept, gone, rfl, rfl, hkept, hafter, ?_⟩
    rw [← hafter.whole]
    exact (Appender.visible_of_none (by exact hnone)).symm

/-! ## Opening a damaged log -/

/-- However opening failed, closing again leaves the bytes alone. -/
theorem closeAgain_stored (hk : s.appender.Kept strict payloads)
    (hrests : s.appender.isRunning = false) :
    (s.withAppender Appender.stop).closeStorage.2.storage.stored = s.storage.stored := by
  obtain ⟨hsame, hlog⟩ := hk.same_stop hrests
  obtain ⟨u, hkeeps, hclosed⟩ := closeStorage_spec (s := s.withAppender Appender.stop)
    (hk.same hsame)
  rw [hclosed]
  refine hkeeps.2.trans ?_
  show s.appender.stop.log.storage.stored = s.appender.log.storage.stored
  rw [hlog]

/-- A log is not opened if it has damage where a record up to the commit position is expected, and
then it loses nothing but a stale block. -/
theorem openStream_damaged (hk : s.appender.Kept strict payloads)
    (hrests : s.appender.isRunning = false) (hsize : s.storage.stored.length < 2 ^ 63)
    (hclosed : s.state ≠ .opened) (hdamaged : (Frame.walk s.appender.visible 0).2 ≠ none)
    (hexpected : ((Frame.walk s.appender.visible 0).1.getLast?.map Record.nextPosition).getD 0
      ≤ s.commit) :
    ∃ e t, openStream.run s = (.error e, t) ∧
      (t.storage.stored = s.storage.stored ∨ t.storage.stored = s.appender.visible) := by
  unfold Attempt.run openStream
  rw [if_neg hclosed, Attempt.run_bind]
  generalize hopen : openStorage.run { s with state := .opening } = opened
  obtain ⟨r, t⟩ := opened
  obtain ⟨u, hkeeps, rfl⟩ := openStorage_spec (s := { s with state := .opening }) hk hopen
  have hsame : s.appender.Same (s.withStorage u).appender := hk.same_storage hkeeps
  have hku := hk.same hsame
  cases r with
  | error e =>
    refine ⟨e, _, rfl, .inl ?_⟩
    exact (closeAgain_stored (s := LogStream.withStorage { s with state := .opening } u)
      hku hrests).trans hkeeps.2
  | ok =>
    dsimp only
    generalize hup : startUp.run (LogStream.withStorage { s with state := .opening } u) = started
    obtain ⟨r, t⟩ := started
    obtain ⟨b, rfl, -, -, hstarted⟩ := startUp_spec (s := LogStream.withStorage
      { s with state := .opening } u) hku hrests (hkeeps.2 ▸ hsize) hup
    have hvisible : (LogStream.withStorage { s with state := .opening } u).appender.visible
        = s.appender.visible := hsame.visible
    cases r with
    | ok =>
      obtain ⟨after, -, -, -, -, hread⟩ := hstarted
      rw [hvisible] at hread
      rcases hread with hread | hread
      · exact absurd hread hdamaged
      · exact absurd hexpected (Int.not_le.2 hread)
    | error e =>
      obtain ⟨hkept, hrests', hstored⟩ := hstarted
      rw [hvisible] at hstored
      have hleft := closeAgain_stored (s := { s with state := .opening, appender := b })
        hkept hrests'
      refine ⟨e, _, rfl, hstored.imp (fun h => hleft.trans (h.trans hkeeps.2)) hleft.trans⟩

end LogStream

end PartitionLog
