import PartitionLog.Proofs.Detection
import PartitionLog.Proofs.FullScan

/-!
# A log with a damaged record

One byte in the frame of a record was changed, and other records lie behind that one. A recovery
`Refuses` the log at the record if it fails with corruption there and leaves the stored bytes alone.
It does so whatever byte behind the length field was changed. Nothing vouches for the length field: a
change there is noticed just if the frame that it tells of does not decode, and it is taken for a torn
tail just if that frame reaches the end (`recover_damaged`). Then the records behind are cut off
(`recover_longLength`).
-/

namespace PartitionLog

namespace Storage

/-- An open storage of which no call fails. -/
structure Works (s : Storage) : Prop where
  sound : s.Sound
  isOpen : s.isOpen = true
  passes : ∀ call n, (s.faults call).fails n = false

variable {s t : Storage}

theorem Works.endAddress (h : s.Works) : ∃ t, endAddress?.run s = (.ok s.stored.length, t) := by
  have hallow := allow_passes (h.passes .endAddress)
  have hanswers : ∃ n t, endAddress?.run s = (.ok n, t) := by
    rw [endAddress?, Attempt.run_bind_ok hallow]
    unfold Attempt.run endMedium
    obtain ⟨bytes, flushes, hm⟩ | ⟨path, handle, hm⟩ := isOpen_cases h.isOpen
    · rw [hm]
      exact ⟨_, _, rfl⟩
    · rw [hm]
      exact ⟨_, _, rfl⟩
  obtain ⟨n, t, hend⟩ := hanswers
  obtain rfl := (endAddress_spec h.sound hend).2 n rfl
  exact ⟨t, hend⟩

/-- What keeps a truncation from being done is not blamed on the log. -/
theorem truncate_error_kind {address : Nat} {e : LogError}
    (h : (truncate address).run s = (.error e, t)) : ∀ bad damage, e ≠ .corruption bad damage := by
  intro bad damage
  obtain ⟨he, -⟩ | ⟨u, -, hu⟩ := run_call h
  · cases he
    simp
  · unfold Attempt.run truncateMedium at hu
    split at hu
    · split at hu
      · cases hu
        simp
      · simp at hu
    · split at hu
      · cases hu
        simp
      · simp at hu
    · cases hu
      unfold closedError
      split <;> simp

end Storage

namespace Frame

/-- Records that are walked through do not lie in front of where the walk began. -/
theorem le_of_mem_walk {src : Bytes} {address : Nat} {r : Record}
    (h : r ∈ (walk src address).1) : address ≤ r.address := by
  fun_induction walk src address with
  | case1 => simp at h
  | case2 => simp at h
  | case3 src address first hd records stop hwalk ih =>
    rw [hwalk] at ih
    have ha := (length_of_decode hd).1
    have hlt := first.lt_nextAddress
    rcases List.mem_cons.1 h with rfl | h
    · omega
    · have := ih h
      omega

end Frame

namespace Scan

variable {log : Bytes} {address : Nat} {found : Recovered} {r : Record}

/-- Behind a run, the position that comes next is the one behind its last record. -/
theorem course_next (address : Nat) {position : Int} (payloads : List Bytes)
    (h : found.nextPosition = position) :
    (course none (Frame.recordsOf position address payloads) found).2.nextPosition
      = position + Frame.span payloads := by
  induction payloads generalizing position address found with
  | nil => simp [course, Frame.recordsOf, h]
  | cons x rest ih =>
    have hfirst : ¬ Breaks found ⟨position, address, x⟩ := Awaits.not_breaks (.inr h)
    have hnext : (found.add ⟨position, address, x⟩).nextPosition = position + x.length := rfl
    rw [Frame.recordsOf, course, if_neg hfirst, ih _ hnext, Frame.span_cons]
    omega

/-- A scan that fails for its records fails at one of them. -/
theorem course_error {stop : Option LogError} {records : List Record} {bad : Nat} {damage : Damage}
    (h : (course stop records found).1 = .error (.corruption bad damage)) :
    ∃ r ∈ records, r.address = bad := by
  induction records generalizing found with
  | nil =>
    unfold course at h
    dsimp only at h
    split at h
    · simp at h
    · simp at h
    · next e hother =>
      simp only [Except.error.injEq] at h
      exact absurd h (hother bad damage)
  | cons r rest ih =>
    unfold course at h
    split at h
    · simp only [Except.error.injEq, LogError.corruption.injEq] at h
      exact ⟨r, List.mem_cons_self, h.1⟩
    · obtain ⟨s, hs, hbad⟩ := ih h
      exact ⟨s, List.mem_cons_of_mem _ hs, hbad⟩

/-- What a scan finds wrong after it took a record lies behind that record. -/
theorem courseAt_behind_record {bad : Nat} {damage : Damage}
    (hd : Frame.decode (log.drop address) address = .ok (some r)) (hseq : ¬ Breaks found r)
    (h : (courseAt log address found).1 = .error (.corruption bad damage) ∨
      ∃ other, (courseAt log address found).1 = .ok (some (bad, other))) : address < bad := by
  rcases h with h | ⟨other, h⟩
  · rw [courseAt_of_record hd, if_neg hseq] at h
    obtain ⟨s, hs, rfl⟩ := course_error h
    have hle := Frame.le_of_mem_walk hs
    have hlt := r.lt_nextAddress
    have ha := (Frame.length_of_decode hd).1
    omega
  · exact lt_of_courseAt hd h

end Scan

namespace IndexedLog

/-- Recovering fails with corruption at the address, and leaves the stored bytes. -/
def Refuses (log : IndexedLog) (commit : Int) (address : Nat) : Prop :=
  ∃ damage after, (recover commit).run log = (.error (.corruption address damage), after) ∧
    after.storage.stored = log.storage.stored

variable {s t : Storage} {bad address : Nat} {damage why : Damage} {found : Recovered}
  {commit : Int}

/-! ## Settling damage -/

/-- Damage is not cut off if its frame ends before the end, or at a committed position. -/
theorem settle_refuses (damage : Damage) (hs : s.Sound) (h : s.Serves)
    (hinside : ¬ Frame.Torn s.stored bad ∨ found.nextPosition ≤ commit) :
    ∃ why t, (settle commit s.stored.length (.ok (some (bad, damage)), found)).run s
      = (.error (.corruption bad why), t) ∧ t.stored = s.stored := by
  obtain ⟨torn, t, ht, halike, htorn⟩ := isTornTail_serves hs h bad
  have hstored : t.stored = s.stored := halike.alike.stored
  rw [settle, Attempt.run_bind, cutTail, Attempt.run_bind_ok ht]
  cases torn with
  | false => exact ⟨_, _, rfl, hstored⟩
  | true =>
    have hcommit := hinside.resolve_left fun hno => hno (htorn.1 rfl)
    rw [if_neg (by simp), if_pos hcommit]
    exact ⟨_, _, rfl, hstored⟩

/-- Corruption that settling reports is where the scan failed, or damage that is not cut off. -/
theorem settle_corruption {outcome : Except LogError (Option (Nat × Damage))} (hs : s.Sound)
    (h : (settle commit s.stored.length (outcome, found)).run s
      = (.error (.corruption address why), t)) :
    outcome = .error (.corruption address why) ∨
      ∃ damage, outcome = .ok (some (address, damage)) ∧
        (¬ Frame.Torn s.stored address ∨ found.nextPosition ≤ commit) := by
  match outcome with
  | .error e =>
    simp only [settle, Attempt.run_fail, Prod.mk.injEq, Except.error.injEq] at h
    exact .inl (by rw [h.1])
  | .ok none => simp [settle] at h
  | .ok (some (bad, damage)) =>
    rw [settle, Attempt.run_bind] at h
    split at h
    · simp at h
    · next e u hcut =>
      simp only [Prod.mk.injEq, Except.error.injEq] at h
      obtain ⟨rfl, rfl⟩ := h
      obtain ⟨-, ⟨e, he, hother⟩ | ⟨he, hno⟩ | ⟨he, hcommit⟩⟩ | ⟨-, -, v, -, htruncate⟩ :=
        cutTail_cases hs hcut
      · simp only [Except.error.injEq] at he
        exact absurd he.symm (hother _ _)
      · simp only [Except.error.injEq, LogError.corruption.injEq] at he
        rw [he.1]
        exact .inr ⟨damage, rfl, .inl hno⟩
      · simp only [Except.error.injEq, LogError.corruption.injEq] at he
        rw [he.1]
        exact .inr ⟨damage, rfl, .inr hcommit⟩
      · exact absurd rfl (Storage.truncate_error_kind htruncate _ _)

/-! ## Recovering a damaged log -/

/-- With no index to start from, a recovery settles what reading from the beginning comes to. -/
theorem recover_unindexed {log after : IndexedLog} {commit : Int} {r : Except LogError Recovered}
    (hs : log.storage.Works) (hindex : log.index.isEmpty = true)
    (hsnap : log.sampling.snapshotPath = none) (h : (recover commit).run log = (r, after)) :
    ∃ found t, t.Sound ∧ t.Serves ∧ t.stored = log.storage.stored ∧
      found.Agrees (Scan.courseAt log.storage.stored 0 {}).2 ∧
      (settle commit t.stored.length ((Scan.courseAt log.storage.stored 0 {}).1, found)).run t
        = (r, after.storage) := by
  have hreads : log.storage.ReadsPass := hs.passes .read
  have hentries : log.index.entries = [] := by simpa [BlockIndex.isEmpty] using hindex
  have hlists : (log.loadSnapshot.index.truncateFrom log.storage.stored.length).Lists [] := by
    intro e he
    rw [loadSnapshot_of_none hsnap, BlockIndex.truncateFrom, BlockIndex.entries_restrict, hentries]
      at he
    simp at he
  obtain ⟨storage, hend⟩ := hs.endAddress
  obtain ⟨found, t, halike, hagree, hsettle⟩ := recover_settles hs.sound hreads
    (show log.storage.stored = Frame.encodeRun 0 [] ++ log.storage.stored from rfl) trivial hlists
    hend h
  have hk := (Storage.endAddress_spec hs.sound hend).1
  have hstored : t.stored = log.storage.stored := halike.alike.stored.trans hk.2
  refine ⟨found, t, halike.alike.sound hk.1, ?_, hstored, hagree, ?_⟩
  · exact halike.serves (Storage.endAddress_serves hreads hend)
  · rw [hstored]
    exact hsettle

/-- Behind a run, a recovery refuses a frame that cannot be read, unless it is cut off. -/
theorem refuses_behind {log : IndexedLog} {before : List Bytes} {rest : Bytes}
    (hs : log.storage.Works) (hindex : log.index.isEmpty = true)
    (hsnap : log.sampling.snapshotPath = none)
    (hlog : log.storage.stored = Frame.encodeRun 0 before ++ rest)
    (hreadable : Frame.Readable 0 before) (haddress : address = (Frame.encodeRun 0 before).length)
    (hnext : ∀ r, Frame.decode (log.storage.stored.drop address) address = .ok (some r) →
      r.position = Frame.span before) :
    log.Refuses commit address ↔
      (∃ e, Frame.decode (log.storage.stored.drop address) address = .error e) ∧
        (¬ Frame.Torn log.storage.stored address ∨ Frame.span before ≤ commit) := by
  generalize hrun : (recover commit).run log = result
  obtain ⟨r, after⟩ := result
  obtain ⟨found, t, hsound, hserves, hstored, hagree, hsettle⟩ :=
    recover_unindexed hs hindex hsnap hrun
  have hreached := Scan.course_next 0 before (show ({} : Recovered).nextPosition = 0 from rfl)
  rw [Int.zero_add] at hreached
  rw [Scan.courseAt_behind hlog hreadable, ← haddress] at hagree hsettle
  constructor
  · rintro ⟨damage, other, hrefused, -⟩
    rw [hrun, Prod.mk.injEq] at hrefused
    obtain ⟨rfl, -⟩ := hrefused
    have hreport := settle_corruption hsound hsettle
    cases hd : Frame.decode (log.storage.stored.drop address) address with
    | error e =>
      obtain ⟨bad, rfl⟩ := Frame.decode_error hd
      rw [Scan.courseAt_of_damage hd] at hagree hreport
      obtain houtcome | ⟨_, -, hinside⟩ := hreport
      · simp at houtcome
      · rw [hstored, hagree.next, hreached] at hinside
        exact ⟨⟨_, rfl⟩, hinside⟩
    | ok read =>
      exfalso
      cases read with
      | none =>
        rw [Scan.courseAt_of_end (Frame.decode_eq_none_iff.1 hd)] at hreport
        simp at hreport
      | some record =>
        -- the record is taken, and whatever else is found lies behind it
        have hseq := Scan.Awaits.not_breaks (.inr (hreached.trans (hnext record hd).symm))
        have hbehind := Scan.courseAt_behind_record hd hseq
          (hreport.imp_right fun ⟨other, houtcome, _⟩ => ⟨other, houtcome⟩)
        exact Nat.lt_irrefl _ hbehind
  · rintro ⟨⟨e, hd⟩, hinside⟩
    obtain ⟨bad, rfl⟩ := Frame.decode_error hd
    rw [Scan.courseAt_of_damage hd] at hagree hsettle
    rw [← hstored, ← hreached, ← hagree.next] at hinside
    obtain ⟨why, u, hu, hkept⟩ := settle_refuses bad hsound hserves hinside
    rw [hu, Prod.mk.injEq] at hsettle
    obtain ⟨rfl, rfl⟩ := hsettle
    exact ⟨why, after, hrun, hkept.trans hstored⟩

/-- What a recovery does about one changed byte in a record with others behind it. -/
theorem recover_damaged (log : IndexedLog) (commit : Int) {payloads : List Bytes} {r : Record}
    {k : Nat} {b : UInt8} (hs : log.storage.Works) (hindex : log.index.isEmpty = true)
    (hsnap : log.sampling.snapshotPath = none) (hreadable : Frame.Readable 0 payloads)
    (hr : r ∈ Frame.recordsOf 0 0 payloads)
    (hinner : r.nextAddress < (Frame.encodeRun 0 payloads).length) (hk : k < r.frameLength)
    (hb : (Frame.encodeRun 0 payloads)[r.address + k]? ≠ some b)
    (hlog : log.storage.stored = (Frame.encodeRun 0 payloads).set (r.address + k) b) :
    (4 ≤ k → log.Refuses commit r.address) ∧
      (log.Refuses commit r.address ↔
        (∃ e, Frame.decode (log.storage.stored.drop r.address) r.address = .error e) ∧
          (¬ Frame.Torn log.storage.stored r.address ∨ r.position ≤ commit)) := by
  obtain ⟨before, x, rest, rfl, hplace⟩ := Frame.exists_split_of_mem hr
  rw [Int.zero_add, Nat.zero_add] at hplace
  have haddress : r.address = (Frame.encodeRun 0 before).length := by rw [hplace]
  have hposition : r.position = Frame.span before := by rw [hplace]
  generalize hintact : Frame.encodeRun 0 (before ++ x :: rest) = intact at hinner hb hlog
  have hd : Frame.decode (intact.drop r.address) r.address = .ok (some r) := by
    rw [haddress, hplace]
    have hwhole : intact = Frame.encodeRun 0 (before ++ x :: rest) ++ [] := by
      rw [hintact, List.append_nil]
    exact Frame.decode_inside hwhole hreadable
  have hbyte : (intact.drop r.address)[k]? ≠ some b := by rwa [List.getElem?_drop]
  have hdrop : log.storage.stored.drop r.address = (intact.drop r.address).set k b := by
    rw [hlog, List.drop_set, if_neg (by omega), Nat.add_sub_cancel_left]
  have hfront : log.storage.stored
      = Frame.encodeRun 0 before ++ log.storage.stored.drop r.address := by
    have hkept : log.storage.stored.take r.address = Frame.encodeRun 0 before := by
      rw [hlog, List.take_set, List.set_eq_of_length_le (by rw [List.length_take]; omega), haddress,
        ← hintact, Frame.encodeRun_append, List.take_left]
    rw [← hkept, List.take_append_drop]
  have hrefuses : log.Refuses commit r.address ↔ _ :=
    refuses_behind hs hindex hsnap hfront (Frame.readable_append.1 hreadable).1 haddress fun s hds =>
      hposition ▸ Frame.position_of_decode_set hd hk hbyte (hdrop ▸ hds)
  rw [← hposition] at hrefuses
  refine ⟨fun hbehind => hrefuses.2 ⟨?_, .inl ?_⟩, hrefuses⟩
  · obtain ⟨hlength, hno⟩ := Frame.not_matches_of_set hd hbehind hk hbyte
    have hfit := (Frame.fits_of_decode hd).1
    rw [hdrop, Frame.decode_of_fits (by rw [hlength, List.length_set]; exact hfit), if_neg hno]
    exact ⟨_, rfl⟩
  · have hlength := (Frame.not_matches_of_set hd hbehind hk hbyte).1
    have hframe := Frame.frameLength_of_decode hd
    have hend : log.storage.stored.length = intact.length := by rw [hlog, List.length_set]
    rw [Record.nextAddress, hframe] at hinner
    rw [Frame.Torn, hdrop, hlength, hend]
    simp only [Frame.lengthFor] at hinner ⊢
    omega

/-- Two records, the first of which has another byte at `k`. -/
def damagedLog (k : Nat) (b : UInt8) : IndexedLog where
  storage := { medium := .memory true ((Frame.encodeRun 0 [[1, 2, 3], [4]]).set k b) 0 }
  sampling := { threshold := 1, windowSize := 256 }

theorem works_damagedLog (k : Nat) (b : UInt8) : (damagedLog k b).storage.Works :=
  ⟨trivial, rfl, fun _ _ => rfl⟩

/-- A changed byte of a payload. -/
theorem recover_flippedLog :
    (damagedLog 17 9).storage.Works ∧ (damagedLog 17 9).index.isEmpty = true ∧
      (damagedLog 17 9).sampling.snapshotPath = none ∧ Frame.Readable 0 [[1, 2, 3], [4]] ∧
      ⟨0, 0, [1, 2, 3]⟩ ∈ Frame.recordsOf 0 0 [[1, 2, 3], [4]] ∧
      19 < (Frame.encodeRun 0 [[1, 2, 3], [4]]).length ∧
      (Frame.encodeRun 0 [[1, 2, 3], [4]])[17]? ≠ some 9 ∧
      (damagedLog 17 9).storage.stored = (Frame.encodeRun 0 [[1, 2, 3], [4]]).set 17 9 ∧
      (damagedLog 17 9).Refuses (-1) 0 := by
  have hreadable : Frame.Readable 0 [[1, 2, 3], [4]] := by
    simp [Frame.Readable, Frame.Framable]
  have hr : (⟨0, 0, [1, 2, 3]⟩ : Record) ∈ Frame.recordsOf 0 0 [[1, 2, 3], [4]] := by decide
  have hinner : 19 < (Frame.encodeRun 0 [[1, 2, 3], [4]]).length := by
    simp [Frame.encodeRun, Frame.length_encode, Frame.lengthFor, Frame.headerLength]
  have hb : (Frame.encodeRun 0 [[1, 2, 3], [4]])[17]? ≠ some 9 := by decide +kernel
  have h := recover_damaged (k := 17) (damagedLog 17 9) (-1) (works_damagedLog 17 9) rfl rfl
    hreadable hr hinner (by decide) hb rfl
  exact ⟨works_damagedLog 17 9, rfl, rfl, hreadable, hr, hinner, hb, rfl, h.1 (by decide)⟩

/-- With 1 for the highest byte of its length, the first record reaches the end of the log. It is cut
off, and the intact record behind it too. -/
theorem recover_longLength :
    (damagedLog 3 1).storage.Works ∧ (damagedLog 3 1).index.isEmpty = true ∧
      (damagedLog 3 1).sampling.snapshotPath = none ∧ Frame.Readable 0 [[1, 2, 3], [4]] ∧
      ⟨0, 0, [1, 2, 3]⟩ ∈ Frame.recordsOf 0 0 [[1, 2, 3], [4]] ∧
      19 < (Frame.encodeRun 0 [[1, 2, 3], [4]]).length ∧
      (Frame.encodeRun 0 [[1, 2, 3], [4]])[3]? ≠ some 1 ∧
      (damagedLog 3 1).storage.stored = (Frame.encodeRun 0 [[1, 2, 3], [4]]).set 3 1 ∧
      ¬ (damagedLog 3 1).Refuses (-1) 0 ∧
      ((recover (-1)).run (damagedLog 3 1)).2.storage.stored = [] := by
  have hreadable : Frame.Readable 0 [[1, 2, 3], [4]] := by
    simp [Frame.Readable, Frame.Framable]
  have hinner : 19 < (Frame.encodeRun 0 [[1, 2, 3], [4]]).length := by
    simp [Frame.encodeRun, Frame.length_encode, Frame.lengthFor, Frame.headerLength]
  have hok : ((recover (-1)).run (damagedLog 3 1)).1.isOk = true := by decide +kernel
  refine ⟨works_damagedLog 3 1, rfl, rfl, hreadable, by decide, hinner, by decide +kernel, rfl, ?_,
    by decide +kernel⟩
  rintro ⟨damage, after, hrefused, -⟩
  rw [hrefused] at hok
  exact absurd hok (by simp [Except.isOk, Except.toBool])

end IndexedLog

end PartitionLog
