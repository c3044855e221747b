import Mathlib
import PartitionLog.Proofs.FullScan
import PartitionLog.Proofs.Seeking

/-!
# Which snapshots a recovery sees through

A snapshot is foreign data, and a recovery checks its entries at two places: those behind the end of
the storage are dropped, and the last of the others has to lead to a record of its position, or all
are forgotten. That is enough for the snapshots where the last entry vouches for the others
(`LastVouches`), and for no other: there every entry that is left is the place of a record, and seeking
by the index answers what seeking without one answers (`recover_trusts_last`). A snapshot with a wrong
entry before a right last one stays as it is (`recover_misleadingIndex`).
-/

namespace PartitionLog

/-! ## Seeking by listed entries -/

namespace Reading

/-- By an index that lists records of the log, a reader finds a position where it finds it without an
index. -/
theorem seek_lists {ix : BlockIndex} {payloads : List Bytes} {log : Bytes} {rs : Reading}
    (h : rs.Sees log) (hs : rs.storage.Serves) (hlog : log = Frame.encodeRun 0 payloads)
    (hr : Frame.Readable 0 payloads) (hlists : ix.Lists payloads) (position : Int) :
    ∃ found ts us, (seek ix position).run rs = (.ok found, ts) ∧
      (seek .empty position).run rs = (.ok found, us) ∧
      ((∀ x ∈ payloads, x ≠ []) → ts.reader.next = us.reader.next) := by
  subst hlog
  have hlaid := Frame.laid_recordsOf hr
  have hsorted := Frame.sorted_recordsOf 0 0 payloads
  have hnone : BlockIndex.empty.PicksFrom (Frame.recordsOf 0 0 payloads) := by
    simp [BlockIndex.PicksFrom, BlockIndex.empty]
  generalize hshort : (seek ix position).run rs = short
  generalize hplain : (seek .empty position).run rs = plain
  obtain ⟨answer, ts⟩ := short
  obtain ⟨other, us⟩ := plain
  obtain rfl := (h.seek hlaid hsorted hlists.picksFrom hshort).1 (hs.not_faulted _)
  obtain rfl := (h.seek hlaid hsorted hnone hplain).1 (hs.not_faulted _)
  refine ⟨_, ts, us, rfl, rfl, fun hne => ?_⟩
  have hordered : Frame.Ordered _ _ := ⟨hlaid, Frame.rising_recordsOf hne 0 0⟩
  rw [((h.seeksExactly hordered hlists.picksFrom position).seek _ _ hshort).2 _ rfl,
    ((h.seeksExactly hordered hnone position).seek _ _ hplain).2 _ rfl]

end Reading

/-! ## What is left of a snapshot -/

/-- If the last entry names a record, all entries are places of records. -/
def BlockIndex.LastVouches (ix : BlockIndex) (payloads : List Bytes) : Prop :=
  (∀ last, ix.last? = some last → last.Names (Frame.encodeRun 0 payloads)) → ix.Lists payloads

namespace IndexedLog

section Snapshot

variable {log after : IndexedLog} {commit : Int} {found : Recovered} {payloads : List Bytes}

/-- Where the last entry vouches for the others, all that are left list records. -/
theorem recover_lists (hs : log.storage.Sound)
    (hlog : log.storage.stored = Frame.encodeRun 0 payloads) (hr : Frame.Readable 0 payloads)
    (h : (recover commit).run log = (.ok found, after))
    (hvouches : (log.loadSnapshot.index.truncateFrom log.storage.stored.length).LastVouches
      payloads) :
    after.index.Lists payloads ∧ after.storage.stored = log.storage.stored := by
  obtain ⟨e, storage, -, hbad, -⟩ | ⟨storage, index, reading, -, hsees, hv, htail⟩ :=
    recover_cases hs h
  · simp at hbad
  · obtain ⟨hfinal, hcases⟩ := verifyLast_cases hsees hv
    have hlists : index.Lists payloads := by
      obtain ⟨rfl, hnames⟩ | rfl := hcases
      · exact hvouches (hlog ▸ hnames)
      · simp [BlockIndex.Lists, BlockIndex.clear, BlockIndex.empty]
    have hrun : log.storage.stored = Frame.encodeRun 0 payloads ++ [] := by
      rw [hlog, List.append_nil]
    generalize hscan : Scan.run log.sampling.threshold (index.lastStart Storage.firstAddress)
      { reading := reading, index := index } = result
    obtain ⟨outcome, scan⟩ := result
    obtain ⟨hpassed, hcourse⟩ := Scan.run_from_entry _ { reading := reading, index := index } hfinal
      rfl hrun hr hlists hscan
    have hwhole : outcome = .ok none ∨ ∃ e, outcome = .error e := by
      obtain ⟨hsame, -⟩ | ⟨hfails, -⟩ := hcourse
      · exact .inl (hsame.trans (Scan.courseAt_whole hlog hr))
      · exact .inr hfails
    obtain ⟨e, -, hbad, -⟩ | ⟨-, -, rfl⟩ | ⟨bad, damage, hcut, -⟩ := recoverTail_cases hscan htail
    · simp at hbad
    · refine ⟨fun e he => ?_, hpassed.sees.stored⟩
      rcases hpassed.listed e he with hold | ⟨r, hmem, hplace⟩
      · exact hlists e hold
      · rw [Frame.walk_past hrun hr, hlog, List.drop_length, Frame.walk_nil, List.append_nil] at hmem
        exact ⟨r, hmem, hplace⟩
    · rw [hcut] at hwhole
      simp at hwhole

/-- Where it does not and reads do not fail, a wrong entry is left. -/
theorem lastVouches_of_recover (hs : log.storage.Sound) (hreads : log.storage.ReadsPass)
    (hlog : log.storage.stored = Frame.encodeRun 0 payloads) (hr : Frame.Readable 0 payloads)
    (h : (recover commit).run log = (.ok found, after)) (hlists : after.index.Lists payloads) :
    (log.loadSnapshot.index.truncateFrom log.storage.stored.length).LastVouches payloads := by
  intro hnames
  rw [← hlog] at hnames
  obtain ⟨e, storage, -, hbad, -⟩ | ⟨storage, index, reading, hend, hsees, hv, htail⟩ :=
    recover_cases hs h
  · simp at hbad
  · have hserves : storage.Serves := Storage.endAddress_serves hreads hend
    obtain ⟨halike, hkeeps⟩ := verifyLast_serves hsees hserves hv
    have hkept := hkeeps hnames
    rw [← hkept] at hnames ⊢
    generalize hscan : Scan.run log.sampling.threshold (index.lastStart Storage.firstAddress)
      { reading := reading, index := index } = result
    obtain ⟨outcome, scan⟩ := result
    obtain ⟨hpassed, hcourse⟩ := Scan.run_course _ _ { reading := reading, index := index }
      (verifyLast_cases hsees hv).1 (fun r hd _ => BlockIndex.trails_of_names hnames hd) hscan
    obtain ⟨e, -, hbad, -⟩ | ⟨-, -, rfl⟩ | ⟨bad, damage, rfl, ⟨e, _, -, hbad, -⟩ | ⟨t, -, -, rfl⟩⟩ :=
      recoverTail_cases hscan htail
    · simp at hbad
    · exact fun e he => hlists e (hpassed.longer.subset he)
    · simp at hbad
    · cases hl : index.last? with
      | none =>
        intro e he
        rw [last?_eq_none hl] at he
        simp at he
      | some last =>
        -- the record of the last entry lies before the cut, so the entry is left, and listed
        exfalso
        obtain ⟨r, hd, -⟩ := hnames last hl
        have hstart : index.lastStart Storage.firstAddress = last.address := by
          rw [BlockIndex.lastStart, hl]
          rfl
        rw [hstart] at hcourse
        have hcut : (Scan.courseAt log.storage.stored last.address {}).1
            = .ok (some (bad, damage)) := by
          obtain heq | ⟨⟨e, he⟩, -⟩ := hcourse
          · exact (congrArg Prod.fst heq).symm
          · simp at he
        have hbehind := Scan.lt_of_courseAt hd hcut
        have hmem : last ∈ (scan.index.truncateFrom bad).entries :=
          List.mem_filter.2 ⟨hpassed.longer.subset (List.mem_of_getLast? hl), by simpa using hbehind⟩
        obtain ⟨before, x, rest, rfl, rfl⟩ := hlists.inside hmem
        have hrun : log.storage.stored = Frame.encodeRun 0 (before ++ x :: rest) ++ [] := by
          rw [hlog, List.append_nil]
        have hwhole := (Scan.course_from_inside hrun hr).1
        rw [Scan.courseAt_whole hlog hr, hcut] at hwhole
        simp at hwhole

/-- Of an index or a snapshot, the entries that are left after a recovery are places of records, and
seeking by them answers what seeking without them answers, if the last one that lies inside the
storage vouches for those before it. If reads do not fail, they are places of records in no other
case. -/
theorem recover_trusts_last (hs : log.storage.Sound)
    (hlog : log.storage.stored = Frame.encodeRun 0 payloads) (hr : Frame.Readable 0 payloads)
    (h : (recover commit).run log = (.ok found, after)) :
    ((log.loadSnapshot.index.truncateFrom log.storage.stored.length).LastVouches payloads →
      after.index.Lists payloads ∧ after.storage.stored = log.storage.stored ∧
        ∀ rs : Reading, rs.Sees after.storage.stored → rs.storage.Serves → ∀ position,
          ∃ answer ts us, (Reading.seek after.index position).run rs = (.ok answer, ts) ∧
            (Reading.seek .empty position).run rs = (.ok answer, us) ∧
            ((∀ x ∈ payloads, x ≠ []) → ts.reader.next = us.reader.next)) ∧
    (log.storage.ReadsPass → after.index.Lists payloads →
      (log.loadSnapshot.index.truncateFrom log.storage.stored.length).LastVouches payloads) := by
  refine ⟨fun hvouches => ?_, fun hreads => lastVouches_of_recover hs hreads hlog hr h⟩
  obtain ⟨hlists, hstored⟩ := recover_lists hs hlog hr h hvouches
  refine ⟨hlists, hstored, fun rs hsees hserves position => ?_⟩
  rw [hstored] at hsees
  exact Reading.seek_lists hsees hserves hlog hr hlists position

end Snapshot

/-! ## Two snapshots -/

theorem loadSnapshot_idem (log : IndexedLog) : log.loadSnapshot.loadSnapshot = log.loadSnapshot := by
  obtain hsame | ⟨path, index, hpath, hread, hloaded⟩ := log.loadSnapshot_cases
  · rw [hsame, hsame]
  · rw [hloaded]
    unfold loadSnapshot
    split
    · simp only [hpath, hread]
    · rfl

/-- A snapshot is to a recovery what the index in it is. -/
theorem recover_loadSnapshot (commit : Int) (log : IndexedLog) :
    (recover commit).run log.loadSnapshot = (recover commit).run log := by
  unfold Attempt.run recover
  rw [loadSnapshot_idem]

/-- Two records, and a snapshot of `ix`. -/
def snapshotLog (ix : BlockIndex) : IndexedLog where
  storage := {
    medium := .memory true (Frame.encodeRun 0 [[1, 2, 3], [4]]) 0
    files := ⟨[(["x"], .file 0)], [BlockIndex.Snapshot.encode ix]⟩ }
  sampling := { threshold := 1, windowSize := 16, snapshotPath := some "x" }

theorem loadSnapshot_snapshotLog {ix : BlockIndex}
    (h : BlockIndex.Snapshot.decode (BlockIndex.Snapshot.encode ix) = .ok ix) :
    (snapshotLog ix).loadSnapshot = { snapshotLog ix with index := ix } := by
  have hfind (contents : List Bytes) :
      FileSystem.find ⟨[(["x"], .file 0)], contents⟩ "x" = .ok 0 := by cbv
  have hread : BlockIndex.Snapshot.read (snapshotLog ix).storage.files "x" = .ok (some ix) := by
    have hcontent : (snapshotLog ix).storage.files.content 0 = BlockIndex.Snapshot.encode ix := rfl
    unfold BlockIndex.Snapshot.read FileSystem.exists? FileSystem.read
    rw [show (snapshotLog ix).storage.files.find "x" = .ok 0 from hfind _]
    simp only [Except.isOk, Except.toBool, Except.map, hcontent, h, Bool.or_true, if_true]
  unfold loadSnapshot
  rw [if_pos (show (snapshotLog ix).index.isEmpty = true from rfl),
    show (snapshotLog ix).sampling.snapshotPath = some "x" from rfl]
  simp only [hread]

theorem recover_staleIndex :
    (snapshotLog staleIndex).storage.Sound ∧
      (snapshotLog staleIndex).storage.stored = Frame.encodeRun 0 [[1, 2, 3], [4]] ∧
      Frame.Readable 0 [[1, 2, 3], [4]] ∧
      ∃ found after, (recover (-1)).run (snapshotLog staleIndex) = (.ok found, after) ∧
        after.index.Lists [[1, 2, 3], [4]] ∧
        ∀ rs : Reading, rs.Sees after.storage.stored → rs.storage.Serves → ∀ position,
          ∃ answer ts us, (Reading.seek after.index position).run rs = (.ok answer, ts) ∧
            (Reading.seek .empty position).run rs = (.ok answer, us) ∧
            ((∀ x ∈ [[1, 2, 3], [4]], x ≠ ([] : Bytes)) → ts.reader.next = us.reader.next) := by
  have hload : (snapshotLog staleIndex).loadSnapshot
      = { snapshotLog staleIndex with index := staleIndex } :=
    loadSnapshot_snapshotLog (by decide +kernel)
  have hsound : (snapshotLog staleIndex).storage.Sound := trivial
  have hreadable : Frame.Readable 0 [[1, 2, 3], [4]] := by simp [Frame.Readable, Frame.Framable]
  have hvouches : ((snapshotLog staleIndex).loadSnapshot.index.truncateFrom
      (snapshotLog staleIndex).storage.stored.length).LastVouches [[1, 2, 3], [4]] := by
    rw [hload]
    intro _
    unfold BlockIndex.Lists
    decide +kernel
  have hok : ((recover (-1)).run (snapshotLog staleIndex)).1.toOption.isSome = true := by
    rw [← recover_loadSnapshot, hload]
    decide +kernel
  refine ⟨hsound, rfl, hreadable, ?_⟩
  generalize hrun : (recover (-1)).run (snapshotLog staleIndex) = result at hok ⊢
  obtain ⟨outcome, after⟩ := result
  cases outcome with
  | error e => simp [Except.toOption] at hok
  | ok found =>
    obtain ⟨hlists, -, hseek⟩ := (recover_trusts_last hsound rfl hreadable hrun).1 hvouches
    exact ⟨found, after, rfl, hlists, hseek⟩

/-- The index of the two records, and an entry inside the first one. -/
def misleadingIndex : BlockIndex := ⟨[⟨0, 0⟩, ⟨1, 7⟩, ⟨3, 19⟩], by decide⟩

/-- An entry that leads to no record outlives the recovery, and a search that starts there fails. -/
theorem recover_misleadingIndex :
    (snapshotLog misleadingIndex).storage.Sound ∧
      (snapshotLog misleadingIndex).storage.stored = Frame.encodeRun 0 [[1, 2, 3], [4]] ∧
      Frame.Readable 0 [[1, 2, 3], [4]] ∧
      ∃ found after, (recover (-1)).run (snapshotLog misleadingIndex) = (.ok found, after) ∧
        after.index = misleadingIndex ∧ ¬ after.index.Lists [[1, 2, 3], [4]] ∧
        ∃ rs : Reading, rs.Sees after.storage.stored ∧ rs.storage.Serves ∧
          ((Reading.seek after.index 2).run rs).1.toOption = none ∧
          ((Reading.seek .empty 2).run rs).1.toOption = some false := by
  have hload : (snapshotLog misleadingIndex).loadSnapshot
      = { snapshotLog misleadingIndex with index := misleadingIndex } :=
    loadSnapshot_snapshotLog (by decide +kernel)
  have hok : ((recover (-1)).run (snapshotLog misleadingIndex)).1.toOption.isSome = true := by
    rw [← recover_loadSnapshot, hload]
    decide +kernel
  have hindex : ((recover (-1)).run (snapshotLog misleadingIndex)).2.index = misleadingIndex := by
    rw [← recover_loadSnapshot, hload]
    decide +kernel
  have hstored : ((recover (-1)).run (snapshotLog misleadingIndex)).2.storage.stored
      = (snapshotLog misleadingIndex).storage.stored := by
    rw [← recover_loadSnapshot, hload]
    decide +kernel
  have hsound : (snapshotLog misleadingIndex).storage.Sound := trivial
  refine ⟨hsound, rfl, by simp [Frame.Readable, Frame.Framable], ?_⟩
  generalize (recover (-1)).run (snapshotLog misleadingIndex) = result at hok hindex hstored
  obtain ⟨outcome, after⟩ := result
  cases outcome with
  | error e => simp [Except.toOption] at hok
  | ok found =>
    dsimp only at hindex hstored
    have hwrong : ¬ misleadingIndex.Lists [[1, 2, 3], [4]] := by
      unfold BlockIndex.Lists
      decide +kernel
    refine ⟨found, after, rfl, hindex, hindex ▸ hwrong,
      ⟨.ofWindow 16, (snapshotLog misleadingIndex).storage⟩, ?_, ⟨rfl, fun _ => rfl⟩, ?_, ?_⟩
    · rw [hstored]
      exact .ofWindow hsound 16
    · rw [hindex]
      decide +kernel
    · decide +kernel

end IndexedLog

end PartitionLog
