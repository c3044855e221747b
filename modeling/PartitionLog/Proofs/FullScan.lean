import PartitionLog.Proofs.Course

/-!
# Recovering by way of an index

An index whose entries list records of the log lets a recovery start at its last entry. Both ways
settle the end of the log by the course of its records (`recover_settles`), and settling depends on
what was found only where two findings agree (`settle_alike`). So the outcome and the stored bytes are
those of a full scan, whatever entries the index has (`recover_as_full_scan`).
-/

namespace PartitionLog

namespace Storage

variable {s t : Storage}

theorem endMedium_ok {n : Nat} (h : endMedium.run s = (.ok n, t)) : t = s ∧ s.isOpen = true := by
  unfold Attempt.run endMedium at h
  split at h
  · next hm =>
    simp only [Prod.mk.injEq] at h
    obtain ⟨-, rfl⟩ := h
    exact ⟨rfl, by rw [isOpen, hm]⟩
  · next hm =>
    simp only [Prod.mk.injEq] at h
    obtain ⟨-, rfl⟩ := h
    exact ⟨rfl, by rw [isOpen, hm]; rfl⟩
  · simp at h

/-- The end of a storage is told only while it is open. -/
theorem endAddress_serves {n : Nat} (hreads : s.ReadsPass)
    (h : endAddress?.run s = (.ok n, t)) : t.Serves := by
  rw [endAddress?, Attempt.run_bind] at h
  split at h
  · next u hallow =>
    obtain ⟨rfl, hisOpen⟩ := endMedium_ok h
    refine ⟨hisOpen, fun k => ?_⟩
    obtain ⟨rfl, -⟩ := allow_cases hallow
    exact hreads k
  · simp at h

theorem truncateMedium_alike (h : s.Alike t) (address : Nat) :
    ((truncateMedium address).run s).1 = ((truncateMedium address).run t).1 ∧
      ((truncateMedium address).run s).2.Alike ((truncateMedium address).run t).2 := by
  obtain ⟨hmedium, hfiles⟩ := h
  unfold Attempt.run truncateMedium closedError
  rw [hmedium, hfiles]
  split
  · split
    · exact ⟨rfl, hmedium, hfiles⟩
    · exact ⟨rfl, rfl, rfl⟩
  · split
    · exact ⟨rfl, hmedium, hfiles⟩
    · exact ⟨rfl, rfl, rfl⟩
  · exact ⟨rfl, hmedium, hfiles⟩

/-- Reads that were made before do not show in a truncation. -/
theorem truncate_alike (h : s.ReadAlike t) (address : Nat) :
    ((truncate address).run s).1 = ((truncate address).run t).1 ∧
      ((truncate address).run s).2.stored = ((truncate address).run t).2.stored := by
  have hplan : (t.faults .truncate) = s.faults .truncate := h.others .truncate (by decide)
  rw [truncate, Attempt.run_bind, Attempt.run_bind]
  unfold Attempt.run allow
  rw [hplan]
  dsimp only
  by_cases hf : (s.faults .truncate).failsNow = true
  · rw [if_pos hf, if_pos hf]
    exact ⟨rfl, (Alike.stored ⟨h.medium, h.files⟩).symm⟩
  · rw [if_neg hf, if_neg hf]
    obtain ⟨hr, hs⟩ := truncateMedium_alike (s := { s with
        faults := s.faults.set .truncate (s.faults .truncate).next })
      (t := { t with faults := t.faults.set .truncate (s.faults .truncate).next })
      ⟨h.medium, h.files⟩ address
    exact ⟨hr, hs.stored.symm⟩

end Storage

namespace IndexedLog

/-- Equal findings, or one failure. -/
def SameFinding : Except LogError Recovered → Except LogError Recovered → Prop
  | .error e, .error other => e = other
  | .ok found, .ok other => found.Agrees other
  | _, _ => False

/-! ## Settling the end -/

/-- What is done with the end of the log, by what a scan of it came to. -/
def settle (commit : Int) (endAddress : Nat) :
    Except LogError (Option (Nat × Damage)) × Recovered → Attempt Storage Recovered
  | (.error e, _) => .fail e
  | (.ok none, found) => pure found
  | (.ok (some (bad, damage)), found) => do
    cutTail bad damage endAddress found.nextPosition commit
    return { found with truncatedTail := true }

/-- Behind its scan, a recovery settles the end. -/
theorem recoverTail_settles {log after : IndexedLog} {commit : Int} {endAddress : Nat}
    {reading : Reading} {r : Except LogError Recovered} {scan : Scan}
    {outcome : Except LogError (Option (Nat × Damage))}
    (hrun : Scan.run log.sampling.threshold (log.index.lastStart Storage.firstAddress)
      { reading := reading, index := log.index } = (outcome, scan))
    (h : (recoverTail commit endAddress reading).run log = (r, after)) :
    (settle commit endAddress (outcome, scan.recovered)).run scan.reading.storage
      = (r, after.storage) := by
  obtain ⟨e, rfl, rfl, rfl⟩ | ⟨rfl, rfl, rfl⟩ | ⟨bad, damage, rfl, hcut⟩ := recoverTail_cases hrun h
  · rfl
  · rfl
  · rw [settle]
    obtain ⟨e, storage, hcut, rfl, rfl⟩ | ⟨storage, hcut, rfl, rfl⟩ := hcut
    · exact Attempt.run_bind_error hcut
    · exact Attempt.run_bind_ok hcut

variable {s t : Storage}

theorem isTornTail_serves (hs : s.Sound) (h : s.Serves) (address : Nat) :
    ∃ torn u, (isTornTail address s.stored.length).run s = (.ok torn, u) ∧ s.ReadAlike u ∧
      (torn = true ↔ Frame.Torn s.stored address) := by
  obtain ⟨bytes, t, hserved⟩ := Storage.read_serves hs h address Frame.headerLength
  generalize hrun : (isTornTail address s.stored.length).run s = result
  obtain ⟨r, u⟩ := result
  obtain ⟨hstate, ⟨e, -, hfails⟩ | ⟨torn, rfl, htorn⟩⟩ := isTornTail_cases hs hrun
  · rw [hserved] at hfails
    simp at hfails
  · refine ⟨torn, u, rfl, ?_, htorn⟩
    obtain rfl | ⟨header, hread⟩ := hstate
    · exact .refl _
    · exact Storage.read_readAlike hread

/-- Cutting the end does not depend on the reads that were made before. -/
theorem cutTail_alike (hs : s.Sound) (h : s.Serves) (hst : s.ReadAlike t) (bad : Nat)
    (damage : Damage) (next commit : Int) :
    ((cutTail bad damage s.stored.length next commit).run s).1
        = ((cutTail bad damage s.stored.length next commit).run t).1 ∧
      ((cutTail bad damage s.stored.length next commit).run s).2.stored
        = ((cutTail bad damage s.stored.length next commit).run t).2.stored := by
  have hstored : t.stored = s.stored := hst.alike.stored
  obtain ⟨torn, u, hu, hsu, htorn⟩ := isTornTail_serves hs h bad
  obtain ⟨torn', v, hv, htv, htorn'⟩ := isTornTail_serves (hst.alike.sound hs) (hst.serves h) bad
  rw [hstored] at hv htorn'
  obtain rfl : torn = torn' := Bool.eq_iff_iff.2 (htorn.trans htorn'.symm)
  have huv : u.ReadAlike v := hsu.symm.trans (hst.trans htv)
  have hsame : u.stored = v.stored := huv.alike.stored.symm
  rw [cutTail, Attempt.run_bind_ok hu, Attempt.run_bind_ok hv]
  split
  · exact ⟨rfl, hsame⟩
  · split
    · exact ⟨rfl, hsame⟩
    · exact Storage.truncate_alike huv bad

/-- Two findings that agree settle the end in the same way. -/
theorem settle_alike (hs : s.Sound) (h : s.Serves) (hst : s.ReadAlike t) (commit : Int)
    (outcome : Except LogError (Option (Nat × Damage))) {found other : Recovered}
    (hagree : found.Agrees other) :
    SameFinding ((settle commit s.stored.length (outcome, found)).run s).1
        ((settle commit s.stored.length (outcome, other)).run t).1 ∧
      ((settle commit s.stored.length (outcome, found)).run s).2.stored
        = ((settle commit s.stored.length (outcome, other)).run t).2.stored := by
  have hstored : s.stored = t.stored := hst.alike.stored.symm
  cases outcome with
  | error e => exact ⟨rfl, hstored⟩
  | ok stop =>
    cases stop with
    | none => exact ⟨hagree, hstored⟩
    | some place =>
      obtain ⟨bad, damage⟩ := place
      rw [settle, settle, ← hagree.next, Attempt.run_bind, Attempt.run_bind]
      obtain ⟨hr, hcut⟩ := cutTail_alike hs h hst bad damage found.nextPosition commit
      generalize (cutTail bad damage s.stored.length found.nextPosition commit).run s = x at hr hcut
      generalize (cutTail bad damage s.stored.length found.nextPosition commit).run t = y at hr hcut
      obtain ⟨r, u⟩ := x
      obtain ⟨r', v⟩ := y
      dsimp only at hr hcut
      subst hr
      cases r with
      | error e => exact ⟨rfl, hcut⟩
      | ok done => exact ⟨⟨rfl, hagree.last, rfl⟩, hcut⟩

/-! ## Both ways to the end -/

/-- When reads do not fail, entries the last of which names a record pass their check. -/
theorem verifyLast_serves {index after : BlockIndex} {reading final : Reading} {log : Bytes}
    (h : reading.Sees log) (hserves : reading.storage.Serves)
    (hv : verifyLast index reading = (after, final)) :
    reading.storage.ReadAlike final.storage ∧
      ((∀ last, index.last? = some last → last.Names log) → after = index) := by
  unfold verifyLast at hv
  split at hv
  · simp only [Prod.mk.injEq] at hv
    obtain ⟨rfl, rfl⟩ := hv
    exact ⟨.refl _, fun _ => rfl⟩
  · next last hl =>
    split at hv
    · next r us hread =>
      simp only [Prod.mk.injEq] at hv
      obtain ⟨rfl, rfl⟩ := hv
      refine ⟨Reading.readAt_readAlike hread, fun hnames => ?_⟩
      obtain ⟨s, hd, hposition⟩ := hnames last hl
      have hfound := Reading.readAt_serves h hserves hread
      rw [hd] at hfound
      simp only [Except.ok.injEq, Option.some.injEq] at hfound
      rw [hfound, if_pos hposition]
    · next answer us hno hread =>
      simp only [Prod.mk.injEq] at hv
      obtain ⟨rfl, rfl⟩ := hv
      refine ⟨Reading.readAt_readAlike hread, fun hnames => ?_⟩
      obtain ⟨s, hd, -⟩ := hnames last hl
      have hfound := Reading.readAt_serves h hserves hread
      rw [hd] at hfound
      exact absurd hfound (hno _)

/-- When its reads do not fail, a recovery scans from the last entry on what it would find by a scan
from the beginning. -/
theorem recover_scans {log after : IndexedLog} {commit : Int} {r : Except LogError Recovered}
    {payloads : List Bytes} {tail : Bytes} {index : BlockIndex} (hs : log.storage.Sound)
    (hreads : log.storage.ReadsPass)
    (hlog : log.storage.stored = Frame.encodeRun 0 payloads ++ tail)
    (hr : Frame.Readable 0 payloads)
    (hindex : log.loadSnapshot.index.truncateFrom log.storage.stored.length = index)
    (hlists : index.Lists payloads) {storage : Storage}
    (hend : Storage.endAddress?.run log.storage = (.ok log.storage.stored.length, storage))
    (h : (recover commit).run log = (r, after)) :
    ∃ (reading : Reading) (scan : Scan), reading.Sees log.storage.stored ∧
      Scan.run log.sampling.threshold (index.lastStart Storage.firstAddress)
        { reading := reading, index := index } = ((Scan.courseAt log.storage.stored 0 {}).1, scan) ∧
      Scan.Passed { reading := reading, index := index } scan log.storage.stored 0 ∧
      storage.ReadAlike scan.reading.storage ∧
      scan.recovered.Agrees (Scan.courseAt log.storage.stored 0 {}).2 ∧
      (recoverTail commit log.storage.stored.length reading).run
        { log with storage := reading.storage, index := index } = (r, after) := by
  obtain ⟨e, t, hbad, -⟩ | ⟨t, checked, reading, hok, hsees, hv, htail⟩ := recover_cases hs h
  · rw [hend] at hbad
    simp at hbad
  rw [hend] at hok
  simp only [Prod.mk.injEq, true_and] at hok
  subst hok
  have hserves : storage.Serves := Storage.endAddress_serves hreads hend
  obtain ⟨halike, hkeeps⟩ := verifyLast_serves hsees hserves hv
  obtain rfl : checked = index := (hkeeps (hindex ▸ hlists.names hlog hr)).trans hindex
  have hreading := (verifyLast_cases hsees hv).1
  generalize hrun : Scan.run log.sampling.threshold (checked.lastStart Storage.firstAddress)
    { reading := reading, index := checked } = result
  obtain ⟨outcome, scan⟩ := result
  obtain ⟨hpassed, ⟨rfl, hagree⟩ | ⟨-, hfails⟩⟩ := Scan.run_from_entry _
    { reading := reading, index := checked } hreading rfl hlog hr hlists hrun
  · exact ⟨reading, scan, hreading, hrun, hpassed, halike.trans hpassed.alike, hagree, htail⟩
  · exact absurd (halike.serves hserves) hfails

/-- What recovering a log comes to when its reads do not fail. -/
theorem recover_settles {log after : IndexedLog} {commit : Int} {r : Except LogError Recovered}
    {payloads : List Bytes} {tail : Bytes} (hs : log.storage.Sound) (hreads : log.storage.ReadsPass)
    (hlog : log.storage.stored = Frame.encodeRun 0 payloads ++ tail)
    (hr : Frame.Readable 0 payloads)
    (hlists : (log.loadSnapshot.index.truncateFrom log.storage.stored.length).Lists payloads)
    {storage : Storage}
    (hend : Storage.endAddress?.run log.storage = (.ok log.storage.stored.length, storage))
    (h : (recover commit).run log = (r, after)) :
    ∃ found t, storage.ReadAlike t ∧ found.Agrees (Scan.courseAt log.storage.stored 0 {}).2 ∧
      (settle commit log.storage.stored.length
        ((Scan.courseAt log.storage.stored 0 {}).1, found)).run t = (r, after.storage) := by
  obtain ⟨reading, scan, -, hrun, -, halike, hagree, htail⟩ :=
    recover_scans hs hreads hlog hr rfl hlists hend h
  exact ⟨scan.recovered, scan.reading.storage, halike, hagree, recoverTail_settles hrun htail⟩

/-- The log without its index and without a snapshot of it. -/
def unindexed (log : IndexedLog) : IndexedLog :=
  { log with index := .empty, sampling := { log.sampling with snapshotPath := none } }

@[simp] theorem storage_unindexed (log : IndexedLog) : log.unindexed.storage = log.storage := rfl

/-- Entries that list records of the log change nothing in what recovering it finds and leaves. What
lies behind the records, and what the index says of places behind the end, is arbitrary. -/
theorem recover_as_full_scan (log : IndexedLog) (commit : Int) {payloads : List Bytes}
    {tail : Bytes} (hs : log.storage.Sound) (hreads : log.storage.ReadsPass)
    (hlog : log.storage.stored = Frame.encodeRun 0 payloads ++ tail)
    (hr : Frame.Readable 0 payloads)
    (hlists : (log.loadSnapshot.index.truncateFrom log.storage.stored.length).Lists payloads) :
    SameFinding ((recover commit).run log).1 ((recover commit).run log.unindexed).1 ∧
      ((recover commit).run log).2.storage.stored
        = ((recover commit).run log.unindexed).2.storage.stored := by
  generalize hone : (recover commit).run log = one
  generalize hother : (recover commit).run log.unindexed = other
  obtain ⟨r, after⟩ := one
  obtain ⟨r', after'⟩ := other
  have hsother : log.unindexed.storage.Sound := hs
  have hnone : (log.unindexed.loadSnapshot.index.truncateFrom log.storage.stored.length).Lists
      payloads := by
    intro e he
    rw [loadSnapshot_of_none rfl] at he
    simp [unindexed, BlockIndex.empty, BlockIndex.truncateFrom] at he
  obtain ⟨e, storage, hend, rfl, -, rfl⟩ | ⟨storage, -, -, hend, hsees, -⟩ := recover_cases hs hone
  · -- where the end of the storage is not told, nothing else is done
    obtain ⟨e', storage', hend', rfl, -, rfl⟩ | ⟨storage', -, -, hend', -⟩ :=
      recover_cases hsother hother
    · rw [storage_unindexed, hend] at hend'
      simp only [Prod.mk.injEq, Except.error.injEq] at hend'
      obtain ⟨rfl, rfl⟩ := hend'
      exact ⟨rfl, rfl⟩
    · rw [storage_unindexed, hend] at hend'
      simp at hend'
  · obtain ⟨found, t, hst, hagree, hsettle⟩ := recover_settles hs hreads hlog hr hlists hend hone
    obtain ⟨found', t', hst', hagree', hsettle'⟩ :=
      recover_settles hsother hreads hlog hr hnone hend hother
    rw [storage_unindexed] at hagree' hsettle'
    have htt : t.ReadAlike t' := hst.symm.trans hst'
    have hserves : t.Serves := hst.serves (Storage.endAddress_serves hreads hend)
    have hstored : t.stored = log.storage.stored := hst.alike.stored.trans hsees.stored
    have hsound : t.Sound := hst.alike.sound hsees.sound
    have h := settle_alike hsound hserves htt commit (Scan.courseAt log.storage.stored 0 {}).1
      (hagree.trans hagree'.symm)
    rw [hstored, hsettle, hsettle'] at h
    exact h

/-- An entry for each of two records, and one that is stale. -/
def staleIndex : BlockIndex := ⟨[⟨0, 0⟩, ⟨3, 19⟩, ⟨9, 90⟩], by decide⟩

/-- Two records and two bytes of a third one, which the stale entry does not name. -/
def coveredLog : IndexedLog where
  storage := { medium := .memory true (Frame.encodeRun 0 [[1, 2, 3], [4]] ++ [4, 0]) 0 }
  index := staleIndex
  sampling := { threshold := 1, windowSize := 16 }

theorem recover_coveredLog :
    coveredLog.storage.Sound ∧ coveredLog.storage.ReadsPass ∧
      coveredLog.storage.stored = Frame.encodeRun 0 [[1, 2, 3], [4]] ++ [4, 0] ∧
      Frame.Readable 0 [[1, 2, 3], [4]] ∧
      (coveredLog.loadSnapshot.index.truncateFrom coveredLog.storage.stored.length).Lists
        [[1, 2, 3], [4]] ∧
      (((recover (-1)).run coveredLog).1.toOption.map (·.scanned)) = some 1 ∧
      (((recover (-1)).run coveredLog.unindexed).1.toOption.map (·.scanned)) = some 2 ∧
      SameFinding ((recover (-1)).run coveredLog).1 ((recover (-1)).run coveredLog.unindexed).1 ∧
      ((recover (-1)).run coveredLog).2.storage.stored
        = ((recover (-1)).run coveredLog.unindexed).2.storage.stored := by
  have hreadable : Frame.Readable 0 [[1, 2, 3], [4]] := by
    simp [Frame.Readable, Frame.Framable]
  have hlists : (coveredLog.loadSnapshot.index.truncateFrom coveredLog.storage.stored.length).Lists
      [[1, 2, 3], [4]] := by
    unfold BlockIndex.Lists
    decide +kernel
  exact ⟨trivial, fun _ => rfl, rfl, hreadable, hlists, by decide +kernel, by decide +kernel,
    recover_as_full_scan coveredLog (-1) trivial (fun _ => rfl) rfl hreadable hlists⟩

end IndexedLog

end PartitionLog
