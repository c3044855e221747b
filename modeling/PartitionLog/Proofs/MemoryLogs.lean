import PartitionLog.Proofs.HeldLogs
import PartitionLog.Proofs.Misreading
import PartitionLog.Proofs.Sampling

/-!
# Logs in memory

Every call on a memory of which no call fails does what it says (`Storage.Memory`). A log in memory
that ends in a severed frame is cut before it, or refused if a committed record belongs there; either
way the records before it were sampled (`recover_severed`). A block that the index takes is written
(`drainOnce_memory`).
-/

namespace PartitionLog

namespace Storage

/-- A memory of these bytes, with no fault planned. -/
structure Memory (s : Storage) (isOpen : Bool) (bytes : Bytes) : Prop where
  medium : ∃ flushes, s.medium = .memory isOpen bytes flushes
  faultless : s.Faultless

variable {s t : Storage} {isOpen : Bool} {bytes : Bytes} {α : Type}

theorem Memory.stored (h : s.Memory isOpen bytes) : s.stored = bytes := by
  obtain ⟨flushes, hm⟩ := h.medium
  rw [Storage.stored, hm]

theorem Memory.closed (h : s.Memory false bytes) : s.isOpen = false := by
  obtain ⟨flushes, hm⟩ := h.medium
  rw [Storage.isOpen, hm]

theorem Memory.works (h : s.Memory true bytes) : s.Works := by
  obtain ⟨flushes, hm⟩ := h.medium
  exact ⟨by rw [Sound, hm]; trivial, by rw [Storage.isOpen, hm], h.faultless⟩

theorem Memory.readAlike (h : s.Memory isOpen bytes) (hst : s.ReadAlike t) : t.Memory isOpen bytes :=
  ⟨hst.medium ▸ h.medium, hst.confined.faultless h.faultless⟩

/-- A call reaches the memory. -/
theorem Memory.run_call {call : StorageCall} {x : Attempt Storage α} (h : s.Memory isOpen bytes) :
    ∃ u, u.Memory isOpen bytes ∧ (do allow call; x : Attempt Storage α).run s = x.run u := by
  obtain ⟨u, hconfined, halike, hrun⟩ : ∃ u, s.Confined u ∧ s.Alike u ∧
    (do allow call; x : Attempt Storage α).run s = x.run u := Faultless.run_call h.faultless
  exact ⟨u, ⟨halike.1 ▸ h.medium, hconfined.faultless h.faultless⟩, hrun⟩

theorem Memory.openUp (h : s.Memory isOpen bytes) :
    ∃ t, Storage.openUp.run s = (.ok (), t) ∧ t.Memory true bytes := by
  obtain ⟨u, ⟨⟨flushes, hm⟩, hplan⟩, hrun⟩ : ∃ u : Storage, u.Memory isOpen bytes ∧
    Storage.openUp.run s = openMedium.run u := h.run_call
  rw [hrun]
  unfold Attempt.run openMedium
  rw [hm]
  exact ⟨_, rfl, ⟨flushes, rfl⟩, hplan⟩

theorem Memory.close (h : s.Memory isOpen bytes) :
    ∃ t, Storage.close.run s = (.ok (), t) ∧ t.Memory false bytes := by
  obtain ⟨u, ⟨⟨flushes, hm⟩, hplan⟩, hrun⟩ : ∃ u : Storage, u.Memory isOpen bytes ∧
    Storage.close.run s = closeMedium.run u := h.run_call
  rw [hrun]
  unfold Attempt.run closeMedium
  rw [hm]
  exact ⟨_, rfl, ⟨flushes, rfl⟩, hplan⟩

theorem Memory.append (h : s.Memory true bytes) (block : Bytes) :
    ∃ t, (Storage.append block).run s = (.ok bytes.length, t) ∧ t.Memory true (bytes ++ block) := by
  obtain ⟨u, ⟨⟨flushes, hm⟩, hplan⟩, hrun⟩ : ∃ u : Storage, u.Memory true bytes ∧
    (Storage.append block).run s = (appendMedium block).run u := h.run_call
  rw [hrun]
  unfold Attempt.run appendMedium
  rw [hm]
  exact ⟨_, rfl, ⟨flushes, rfl⟩, hplan⟩

theorem Memory.flush (h : s.Memory true bytes) :
    ∃ t, Storage.flush.run s = (.ok (), t) ∧ t.Memory true bytes := by
  obtain ⟨u, ⟨⟨flushes, hm⟩, hplan⟩, hrun⟩ : ∃ u : Storage, u.Memory true bytes ∧
    Storage.flush.run s = flushMedium.run u := h.run_call
  rw [hrun]
  unfold Attempt.run flushMedium
  rw [hm]
  exact ⟨_, rfl, ⟨flushes + 1, rfl⟩, hplan⟩

theorem Memory.truncate (h : s.Memory true bytes) {address : Nat} (hle : address ≤ bytes.length) :
    ∃ t, (Storage.truncate address).run s = (.ok (), t) ∧ t.Memory true (bytes.take address) := by
  obtain ⟨u, ⟨⟨flushes, hm⟩, hplan⟩, hrun⟩ : ∃ u : Storage, u.Memory true bytes ∧
    (Storage.truncate address).run s = (truncateMedium address).run u := h.run_call
  rw [hrun]
  unfold Attempt.run truncateMedium
  rw [hm]
  dsimp only
  rw [if_neg (Nat.not_lt.2 hle)]
  exact ⟨_, rfl, ⟨flushes, rfl⟩, hplan⟩

theorem Memory.endAddress (h : s.Memory true bytes) :
    ∃ t, endAddress?.run s = (.ok bytes.length, t) ∧ t.Memory true bytes := by
  obtain ⟨u, hu, hrun⟩ : ∃ u : Storage, u.Memory true bytes ∧
    endAddress?.run s = endMedium.run u := h.run_call
  obtain ⟨flushes, hm⟩ := hu.medium
  rw [hrun]
  unfold Attempt.run endMedium
  rw [hm]
  exact ⟨u, rfl, hu⟩

end Storage

namespace Frame

variable {log tail : Bytes} {payloads : List Bytes}

/-- Nothing is read from what is severed. -/
theorem Severed.walk (h : Severed tail) (hlog : log = encodeRun 0 payloads ++ tail)
    (hr : Readable 0 payloads) : (Frame.walk (log.drop 0) 0).1 = recordsOf 0 0 payloads := by
  obtain ⟨damage, hdamage⟩ := h.decode (encodeRun 0 payloads).length
  rw [walk_past hlog hr, hlog, List.drop_left, walk_eq_nil hdamage, List.append_nil]

/-- What is severed behind a run is a torn end. -/
theorem Severed.torn (h : Severed tail) (hlog : log = encodeRun 0 payloads ++ tail) :
    Torn log (encodeRun 0 payloads).length := by
  have hshort := h.short
  rw [Torn, hlog, List.drop_left, List.length_append]
  exact .inr (by omega)

end Frame

namespace IndexedLog

variable {s : Storage} {bytes : Bytes} {bad : Nat} {next commit : Int}

/-! ## Recovering -/

theorem isTornTail_memory (h : s.Memory true bytes) (htorn : Frame.Torn bytes bad) :
    ∃ t, (isTornTail bad bytes.length).run s = (.ok true, t) ∧ t.Memory true bytes := by
  obtain ⟨torn, t, ht, halike, hanswer⟩ :=
    isTornTail_serves h.works.sound ⟨h.works.isOpen, h.works.passes .read⟩ bad
  rw [h.stored] at ht hanswer
  rw [hanswer.2 htorn] at ht
  exact ⟨t, ht, h.readAlike halike⟩

/-- A torn end is cut off. -/
theorem cutTail_memory (damage : Damage) (h : s.Memory true bytes) (htorn : Frame.Torn bytes bad)
    (hbad : bad ≤ bytes.length) (hcommit : commit < next) :
    ∃ t, (cutTail bad damage bytes.length next commit).run s = (.ok (), t) ∧
      t.Memory true (bytes.take bad) := by
  obtain ⟨u, hanswer, hu⟩ := isTornTail_memory h htorn
  obtain ⟨t, ht, hcut⟩ := hu.truncate hbad
  refine ⟨t, ?_, hcut⟩
  rw [cutTail, Attempt.run_bind_ok hanswer, if_neg (by simp), if_neg (by omega)]
  exact ht

/-- A torn end at a committed position is left. -/
theorem cutTail_committed (damage : Damage) (h : s.Memory true bytes) (htorn : Frame.Torn bytes bad)
    (hcommit : next ≤ commit) :
    ∃ t, (cutTail bad damage bytes.length next commit).run s
        = (.error (.corruption bad (.committed damage next commit)), t) ∧ t.Memory true bytes := by
  obtain ⟨u, hanswer, hu⟩ := isTornTail_memory h htorn
  refine ⟨u, ?_, hu⟩
  rw [cutTail, Attempt.run_bind_ok hanswer, if_neg (by simp), if_pos hcommit]
  rfl

variable {log : IndexedLog} {payloads : List Bytes} {tail : Bytes}

/-- Where a scan of a log in memory comes to, and what is left to do then. -/
theorem recover_memory (h : log.storage.Memory true (Frame.encodeRun 0 payloads ++ tail))
    (hr : Frame.Readable 0 payloads) (hsnap : log.sampling.snapshotPath = none)
    (hlists : log.index.Lists payloads) {stop : Option (Nat × Damage)}
    (hstop : ∀ found, Scan.courseAt log.storage.stored (Frame.encodeRun 0 payloads).length found
      = (.ok stop, found)) {commit : Int} {r : Except LogError Recovered} {after : IndexedLog}
    (hrun : (recover commit).run log = (r, after)) :
    ∃ (reading : Reading) (scan : Scan),
      Scan.run log.sampling.threshold (log.index.lastStart Storage.firstAddress)
        { reading := reading, index := log.index } = (.ok stop, scan) ∧
      Scan.sampleAll log.sampling.threshold
        (Frame.walk (log.storage.stored.drop (log.index.lastStart Storage.firstAddress))
          (log.index.lastStart Storage.firstAddress)).1 log.index none
          = .ok (scan.index, scan.sinceEntry) ∧
      Scan.Passed { reading := reading, index := log.index } scan log.storage.stored 0 ∧
      scan.reading.storage.Memory true (Frame.encodeRun 0 payloads ++ tail) ∧
      scan.recovered.nextPosition = Frame.span payloads ∧
      (recoverTail commit log.storage.stored.length reading).run
        { log with storage := reading.storage } = (r, after) := by
  have hworks := h.works
  have hlog : log.storage.stored = Frame.encodeRun 0 payloads ++ tail := h.stored
  have hindex : log.loadSnapshot.index.truncateFrom log.storage.stored.length = log.index := by
    rw [loadSnapshot_of_none hsnap, hlog, List.length_append]
    exact BlockIndex.truncateFrom_eq_self fun e he => Nat.lt_add_right _ (hlists.below e he)
  obtain ⟨storage, hend, hopened⟩ := h.endAddress
  obtain ⟨reading, scan, hsees, hscan, hpassed, halike, hagree, hrest⟩ :=
    recover_scans hworks.sound (hworks.passes .read) hlog hr hindex hlists (hlog ▸ hend) hrun
  rw [Scan.courseAt_behind hlog hr, hstop] at hscan hagree
  have hreached := Scan.course_next 0 payloads (show ({} : Recovered).nextPosition = 0 from rfl)
  exact ⟨reading, scan, hscan,
    Scan.run_samples _ _ { reading := reading, index := log.index } hsees hscan, hpassed,
    hopened.readAlike halike, hagree.next.trans (hreached.trans (Int.zero_add _)), hrest⟩

/-- A log in memory that is whole is left as it is. -/
theorem recover_whole_memory (h : log.storage.Memory true (Frame.encodeRun 0 payloads))
    (hr : Frame.Readable 0 payloads) (hsnap : log.sampling.snapshotPath = none)
    (hlists : log.index.Lists payloads) (commit : Int) :
    ∃ found t index since, (recover commit).run log
        = (.ok found, ⟨t, index, { log.sampling with isOpen := true, sinceEntry := since }⟩) ∧
      found.nextPosition = Frame.span payloads ∧ t.Memory true (Frame.encodeRun 0 payloads) ∧
      Scan.sampleAll log.sampling.threshold
        (Frame.walk (log.storage.stored.drop (log.index.lastStart Storage.firstAddress))
          (log.index.lastStart Storage.firstAddress)).1 log.index none = .ok (index, since) := by
  have hlog : log.storage.stored = Frame.encodeRun 0 payloads := h.stored
  generalize hrun : (recover commit).run log = result
  obtain ⟨r, after⟩ := result
  rw [← List.append_nil (Frame.encodeRun 0 payloads)] at h
  obtain ⟨reading, scan, hscan, hsampled, -, hmemory, hnext, hrest⟩ :=
    recover_memory h hr hsnap hlists (Scan.courseAt_of_end (by rw [hlog, List.drop_length])) hrun
  rw [List.append_nil] at hmemory
  obtain ⟨e, hbad, -⟩ | ⟨-, rfl, rfl⟩ | ⟨bad, damage, hbad, -⟩ := recoverTail_cases hscan hrest
  · simp at hbad
  · exact ⟨_, _, _, _, rfl, hnext, hmemory, hsampled⟩
  · simp at hbad

/-- A log in memory that ends in a severed frame is cut there, unless a committed record belongs
there. Entries are made for the records that can be read before it. -/
theorem recover_severed (h : log.storage.Memory true (Frame.encodeRun 0 payloads ++ tail))
    (htail : Frame.Severed tail) (hr : Frame.Readable 0 payloads)
    (hsnap : log.sampling.snapshotPath = none) (hlists : log.index.Lists payloads) (commit : Int) :
    ∃ index since, Scan.sampleAll log.sampling.threshold
        (Frame.walk (log.storage.stored.drop (log.index.lastStart Storage.firstAddress))
          (log.index.lastStart Storage.firstAddress)).1 log.index none = .ok (index, since) ∧
      (commit < Frame.span payloads → ∃ found t, (recover commit).run log
          = (.ok found, ⟨t, index, { log.sampling with isOpen := true, sinceEntry := since }⟩) ∧
        found.nextPosition = Frame.span payloads ∧ t.Memory true (Frame.encodeRun 0 payloads)) ∧
      (Frame.span payloads ≤ commit → ∃ e t, (recover commit).run log
          = (.error e, { log with storage := t, index := index }) ∧
        t.Memory true (Frame.encodeRun 0 payloads ++ tail)) := by
  have hlog : log.storage.stored = Frame.encodeRun 0 payloads ++ tail := h.stored
  obtain ⟨damage, hdamage⟩ := htail.decode (Frame.encodeRun 0 payloads).length
  have hbehind : log.storage.stored.drop (Frame.encodeRun 0 payloads).length = tail := by
    rw [hlog, List.drop_left]
  rw [← hbehind] at hdamage
  generalize hrun : (recover commit).run log = result
  obtain ⟨r, after⟩ := result
  obtain ⟨reading, scan, hscan, hsampled, hpassed, hmemory, hnext, hrest⟩ :=
    recover_memory h hr hsnap hlists (Scan.courseAt_of_damage hdamage) hrun
  -- the scan passed no other records than those before the tail
  have hbelow : scan.index.Below (Frame.encodeRun 0 payloads).length := by
    intro e he
    obtain hold | ⟨r, hmem, -, haddress⟩ := hpassed.listed e he
    · exact hlists.below e hold
    · rw [htail.walk hlog hr] at hmem
      have hlt := Frame.address_lt_of_mem hmem
      omega
  have htorn : Frame.Torn (Frame.encodeRun 0 payloads ++ tail) (Frame.encodeRun 0 payloads).length :=
    htail.torn rfl
  have hwithin : (Frame.encodeRun 0 payloads).length ≤ (Frame.encodeRun 0 payloads ++ tail).length := by
    rw [List.length_append]
    omega
  obtain ⟨e, hbad, -⟩ | ⟨hbad, -⟩ | ⟨bad, other, hfound, hends⟩ := recoverTail_cases hscan hrest
  · simp at hbad
  · simp at hbad
  simp only [Except.ok.injEq, Option.some.injEq, Prod.mk.injEq] at hfound
  obtain ⟨rfl, rfl⟩ := hfound
  rw [hlog] at hends
  refine ⟨scan.index, scan.sinceEntry, hsampled, fun hcommit => ?_, fun hcommit => ?_⟩
  · obtain ⟨t, hcut, ht⟩ :=
      cutTail_memory damage hmemory htorn hwithin (hnext ▸ hcommit)
    rw [List.take_left] at ht
    obtain ⟨e, storage, hbad, -⟩ | ⟨storage, hok, rfl, rfl⟩ := hends
    · rw [hcut] at hbad
      simp at hbad
    · obtain rfl : t = storage := congrArg Prod.snd (hcut.symm.trans hok)
      rw [BlockIndex.truncateFrom_eq_self hbelow]
      exact ⟨_, _, rfl, hnext, ht⟩
  · obtain ⟨t, hleft, ht⟩ := cutTail_committed damage hmemory htorn (hnext ▸ hcommit)
    obtain ⟨e, storage, hfailed, rfl, rfl⟩ | ⟨storage, hbad, -⟩ := hends
    · obtain rfl : t = storage := congrArg Prod.snd (hleft.symm.trans hfailed)
      exact ⟨_, _, rfl, ht⟩
    · rw [hleft] at hbad
      simp at hbad

end IndexedLog

/-! ## Draining -/

namespace Appender

variable {a b : Appender} {bytes : Bytes} {fragments : List Bytes}

theorem storeBlock_memory (h : a.log.storage.Memory true bytes) (block : Bytes) :
    ∃ t n, (storeBlock block).run a
        = (.ok bytes.length, { a.withStorage t with unflushed := n }) ∧
      t.Memory true (bytes ++ block) := by
  obtain ⟨t, happend, ht⟩ := h.append block
  obtain ⟨u, hflush, hu⟩ := ht.flush
  obtain ⟨v, n, hstore, rfl | rfl⟩ := storeBlock_flushed happend hflush
  · exact ⟨v, n, hstore, ht⟩
  · exact ⟨v, n, hstore, hu⟩

/-- A block that is written comes behind the bytes in memory, and then to the index. -/
theorem writeBlock_memory {r : Except LogError Unit} (h : a.log.storage.Memory true bytes)
    (hw : (writeBlock fragments).run a = (r, b)) :
    ∃ t n log, t.Memory true (bytes ++ Frame.encodeRun a.nextPosition fragments) ∧
      (IndexedLog.noteBlock a.nextPosition bytes.length
        (Frame.encodeRun a.nextPosition fragments).length).run { a.log with storage := t }
          = (r, log) ∧
      ((∃ e, r = .error e ∧ b = { a with log := log, unflushed := n }) ∨
        (r = .ok () ∧ b = { a with
          log := log
          unflushed := n
          nextPosition := a.nextPosition + fragments.flatten.length })) := by
  obtain ⟨t, n, hstore, ht⟩ := storeBlock_memory h (Frame.encodeRun a.nextPosition fragments)
  obtain ⟨e, hfailed, -⟩ | ⟨address, c, log, hstored, hnote, hends⟩ := writeBlock_cases hw
  · rw [hstore] at hfailed
    simp at hfailed
  · rw [hstore] at hstored
    simp only [Prod.mk.injEq, Except.ok.injEq] at hstored
    obtain ⟨rfl, rfl⟩ := hstored
    exact ⟨t, n, log, ht, hnote, hends⟩

/-- A cycle of an appender in memory whose index takes the block. -/
theorem drainOnce_memory {drained : DrainBlock} {index : BlockIndex}
    (h : a.log.storage.Memory true bytes)
    (hblock : a.buffer.pollBlock a.maxBlock = some drained) (hne : drained.fragments ≠ [])
    (hdue : needsEntry a.log.sampling.threshold a.log.sampling.sinceEntry = true)
    (htakes : a.log.index.append a.nextPosition bytes.length = .ok index) :
    ∃ t n, t.Memory true (bytes ++ Frame.encodeRun a.nextPosition drained.fragments) ∧
      drainOnce.run a = (.ok true, { a with
        log := ⟨t, index, { a.log.sampling with
          sinceEntry := some (Frame.encodeRun a.nextPosition drained.fragments).length }⟩
        buffer := a.buffer.release drained.slotCount
        unflushed := n
        nextPosition := a.nextPosition + drained.fragments.flatten.length }) := by
  generalize hrun : drainOnce.run a = result
  obtain ⟨r, b⟩ := result
  obtain ⟨hnone, -⟩ | ⟨block, hpolled, hends⟩ := drainOnce_runs hrun
  · simp [hblock] at hnone
  obtain rfl : drained = block := Option.some.inj (hblock.symm.trans hpolled)
  obtain ⟨hnil, -⟩ | ⟨-, ⟨e, rfl, hw⟩ | ⟨c, rfl, hw, rfl⟩⟩ := hends
  · exact absurd hnil hne
  · obtain ⟨t, n, log, -, hnote, -⟩ := writeBlock_memory h hw
    obtain ⟨-, -, hrefused⟩ := IndexedLog.noteBlock_error hnote
    rw [htakes] at hrefused
    simp at hrefused
  · obtain ⟨t, n, log, ht, hnote, ⟨e, hbad, -⟩ | ⟨-, rfl⟩⟩ := writeBlock_memory h hw
    · simp at hbad
    obtain ⟨-, ⟨e, -, hbad, -⟩ | ⟨other, hother, -, rfl⟩⟩ | ⟨hnot, -⟩ := IndexedLog.noteBlock_cases hnote
    · simp at hbad
    · obtain rfl : index = other := Except.ok.inj (htakes.symm.trans hother)
      exact ⟨t, n, ht, rfl⟩
    · simp [hdue] at hnot

/-- A cycle of an appender in memory whose index refuses the block, which is written all the same. -/
theorem drainOnce_refused {drained : DrainBlock} {e : LogError} (h : a.log.storage.Memory true bytes)
    (hblock : a.buffer.pollBlock a.maxBlock = some drained) (hne : drained.fragments ≠ [])
    (hdue : needsEntry a.log.sampling.threshold a.log.sampling.sinceEntry = true)
    (hrefuses : a.log.index.append a.nextPosition bytes.length = .error e) :
    (drainOnce.run a).1 = .error e := by
  generalize hrun : drainOnce.run a = result
  obtain ⟨r, b⟩ := result
  obtain ⟨hnone, -⟩ | ⟨block, hpolled, hends⟩ := drainOnce_runs hrun
  · simp [hblock] at hnone
  obtain rfl : drained = block := Option.some.inj (hblock.symm.trans hpolled)
  -- the index is asked in any case
  have hasked : ∀ {r' : Except LogError Unit} {c}, (writeBlock drained.fragments).run a = (r', c) →
      r' = .error e := by
    intro r' c hw
    obtain ⟨t, n, log, -, hnote, -⟩ := writeBlock_memory h hw
    obtain ⟨-, ⟨e', hother, rfl, -⟩ | ⟨index, hok, -⟩⟩ | ⟨hnot, -⟩ := IndexedLog.noteBlock_cases hnote
    · rw [Except.error.inj (hrefuses.symm.trans hother)]
    · simp [hrefuses] at hok
    · simp [hdue] at hnot
  obtain ⟨hnil, -⟩ | ⟨-, ⟨e', rfl, hw⟩ | ⟨c, -, hw, -⟩⟩ := hends
  · exact absurd hnil hne
  · rw [Except.error.inj (hasked hw)]
  · simpa using hasked hw

end Appender

end PartitionLog
