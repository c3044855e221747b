import PartitionLog.Proofs.HeldLogs
import PartitionLog.Proofs.Sampling

/-!
# Opening a log again

A log that was opened is whole, and its entries are places of its records (`Opened`). Opening it again
scans from the last entry on, and that finds the same end and makes no entry that the first scan left
out (`Opened.repeats`): with the index that is still there, or with the one that closing saved
(`recover_again`). So blocks that are noted afterwards get the same entries (`notings`).
-/

namespace PartitionLog

/-- The open file of the storage is neither a snapshot nor its draft. -/
def Storage.ApartFrom (s : Storage) (snapshot : String) : Prop :=
  ∀ path number key, s.site = some (path, number) → s.files.resolve path = .ok key →
    FileSystem.Misses snapshot key ∧ FileSystem.Misses (BlockIndex.Snapshot.draftPath snapshot) key

namespace IndexedLog

variable {log after again closed : IndexedLog} {found : Recovered} {payloads : List Bytes}
  {commit : Int}

/-! ## Noting blocks -/

/-- Index and counter are the same, and so is the threshold. -/
structure SamplesAlike (log other : IndexedLog) : Prop where
  index : other.index = log.index
  threshold : other.sampling.threshold = log.sampling.threshold
  sinceEntry : other.sampling.sinceEntry = log.sampling.sinceEntry

/-- What noting some blocks answers and leaves in the index, block after block. -/
def notings : List (Int × Nat × Nat) → IndexedLog → List (Except LogError Unit × BlockIndex)
  | [], _ => []
  | (position, address, length) :: blocks, log =>
    let noted := (noteBlock position address length).run log
    (noted.1, noted.2.index) :: notings blocks noted.2

theorem noteBlock_alike {other : IndexedLog} (h : log.SamplesAlike other) (position : Int)
    (address length : Nat) :
    ((noteBlock position address length).run other).1 = ((noteBlock position address length).run log).1 ∧
      ((noteBlock position address length).run log).2.SamplesAlike
        ((noteBlock position address length).run other).2 := by
  unfold Attempt.run noteBlock
  rw [h.index, h.threshold, h.sinceEntry]
  split
  · split
    · exact ⟨rfl, h⟩
    · exact ⟨rfl, rfl, h.threshold, rfl⟩
  · exact ⟨rfl, rfl, h.threshold, rfl⟩

theorem notings_alike {other : IndexedLog} (h : log.SamplesAlike other)
    (blocks : List (Int × Nat × Nat)) : notings blocks other = notings blocks log := by
  induction blocks generalizing log other with
  | nil => rfl
  | cons block blocks ih =>
    obtain ⟨position, address, length⟩ := block
    obtain ⟨hanswer, halike⟩ := noteBlock_alike h position address length
    simp only [notings, hanswer, halike.index, ih halike]

/-! ## Opening twice -/

/-- What opening `again` finds and leaves is what was `found` and left as `after`. -/
structure Repeated (found : Recovered) (after : IndexedLog) (other : Recovered)
    (final : IndexedLog) : Prop where
  stored : final.storage.stored = after.storage.stored
  index : final.index = after.index
  truncated : other.truncatedTail = false
  next : other.nextPosition = found.nextPosition
  last : other.lastPosition = found.lastPosition
  sinceEntry : final.sampling.sinceEntry = after.sampling.sinceEntry
  notings : ∀ blocks, notings blocks final = notings blocks after

/-- Whatever is committed, opening `again` succeeds and repeats what was `found` and left before. -/
def Repeats (found : Recovered) (after again : IndexedLog) : Prop :=
  ∀ commit, ∃ other final, (recover commit).run again = (.ok other, final) ∧
    Repeated found after other final

/-- A log of these payloads that was opened, and what was found. -/
structure Opened (found : Recovered) (after : IndexedLog) (payloads : List Bytes) : Prop where
  works : after.storage.Works
  readable : Frame.Readable 0 payloads
  stored : after.storage.stored = Frame.encodeRun 0 payloads
  lists : after.index.Lists payloads
  isOpen : after.sampling.isOpen = true
  next : found.nextPosition
    = ((Frame.walk after.storage.stored Storage.firstAddress).1.getLast?.map
        Record.nextPosition).getD 0
  last : found.lastPosition
    = (Frame.walk after.storage.stored Storage.firstAddress).1.getLast?.map Record.position
  empty : after.index.entries = [] → after.storage.stored = []
  resumes : Scan.sampleAll after.sampling.threshold
      (Frame.walk (after.storage.stored.drop (after.index.lastStart Storage.firstAddress))
        (after.index.lastStart Storage.firstAddress)).1 after.index none
    = .ok (after.index, after.sampling.sinceEntry)

/-- A recovery that succeeds is told the end of an open storage. -/
theorem recover_isOpen (hs : log.storage.Sound) (hplan : log.storage.Faultless)
    (h : (recover commit).run log = (.ok found, after)) : after.storage.Works := by
  obtain ⟨e, storage, -, hbad, -, -⟩ | ⟨storage, -, -, hend, -⟩ := recover_cases hs h
  · simp at hbad
  · have hserves := Storage.endAddress_serves (hplan .read) hend
    have hconfined := recover_confined h
    have hcalled := Storage.Confines.endAddress log.storage
    rw [hend] at hcalled
    refine ⟨(recover_leaves hs h).1, ?_, hconfined.faultless hplan⟩
    rw [hconfined.isOpen, ← hcalled.isOpen]
    exact hserves.isOpen

/-- Records are found in the same places by a walk through what a recovery leaves. -/
theorem RecoversTo.walk_after {start : Int}
    (h : log.RecoversTo after commit found start payloads) :
    (Frame.walk after.storage.stored Storage.firstAddress).1 = Frame.recordsOf start 0 payloads :=
  records_of_stored h.stored h.readable

theorem recover_opened (hs : log.storage.Sound) (hplan : log.storage.Faultless)
    (hsuits : log.loadSnapshot.index.Suits log.storage.stored)
    (hfirst : ∀ r, Frame.decode log.storage.stored 0 = .ok (some r) → r.position = 0)
    (h : (recover commit).run log = (.ok found, after)) :
    ∃ payloads, Opened found after payloads := by
  obtain ⟨payloads, hholds, -, hr, -⟩ := recover_holds hs hsuits hfirst h
  obtain ⟨start, others, hto⟩ := recover_loaded hs hsuits.describes h
  obtain ⟨index, _, before, scanned, hscans⟩ :=
    recover_samples hs (BlockIndex.describes_restrict hsuits.describes _) h
  have hwalk := hto.walk_after
  exact ⟨payloads, {
    works := recover_isOpen hs hplan h
    readable := hr
    stored := hholds.stored
    lists := hholds.lists
    isOpen := hholds.isOpen
    next := by rw [hwalk, hto.next]
    last := by rw [hwalk, hto.last]
    empty := hscans.stored_eq_nil
    resumes := by
      rw [hscans.sampling]
      exact hscans.resumes }⟩

/-- Opening such a log again repeats what was found, if it starts with the entries that were left. -/
theorem Opened.repeats (h : Opened found after payloads) (hworks : again.storage.Works)
    (hstored : again.storage.stored = after.storage.stored)
    (hindex : again.loadSnapshot.index.truncateFrom again.storage.stored.length = after.index)
    (hthreshold : again.sampling.threshold = after.sampling.threshold) :
    Repeats found after again := by
  intro commit
  generalize hrun : (recover commit).run again = result
  obtain ⟨r, final⟩ := result
  have hlog : again.storage.stored = Frame.encodeRun 0 payloads := hstored.trans h.stored
  have hwhole : again.storage.stored = Frame.encodeRun 0 payloads ++ [] := by
    rw [hlog, List.append_nil]
  obtain ⟨told, hend⟩ := hworks.endAddress
  obtain ⟨reading, scan, hreading, hscan, hpassed, -, -, htail⟩ := recover_scans hworks.sound
    (hworks.passes .read) hwhole h.readable hindex h.lists hend hrun
  rw [Scan.courseAt_whole hlog h.readable] at hscan
  obtain ⟨e, hbad, -⟩ | ⟨-, rfl, rfl⟩ | ⟨bad, damage, hbad, -⟩ := recoverTail_cases hscan htail
  · simp at hbad
  rotate_left
  · simp at hbad
  -- the samples of the second scan are those that the first one can be taken up with
  have hsamples := Scan.run_samples _ _ _ hreading hscan
  rw [hthreshold, hstored, h.resumes] at hsamples
  simp only [Except.ok.injEq, Prod.mk.injEq] at hsamples
  obtain ⟨hsame, hsince⟩ := hsamples
  have hfinal : scan.reading.storage.stored = again.storage.stored := hpassed.sees.stored
  refine ⟨scan.recovered, _, rfl, ?_⟩
  obtain ⟨e, t, hbad, -⟩ | ⟨start, others, hto⟩ := recover_settled hworks.sound
    (by rw [hindex, hlog]; exact h.lists.describes h.readable) hrun
  · simp at hbad
  have hwalk := hto.walk
  rw [hstored] at hwalk
  exact {
    stored := hfinal.trans hstored
    index := hsame.symm
    truncated := by
      obtain ⟨huncut, -⟩ | ⟨-, -, -, damage, hd⟩ := hto.cut
      · exact huncut
      · rw [← hfinal, List.drop_length] at hd
        simp at hd
    next := by rw [hto.next, h.next, hwalk]
    last := by rw [hto.last, h.last, hwalk]
    sinceEntry := hsince.symm
    notings := notings_alike ⟨hsame.symm, hthreshold, hsince.symm⟩ }

/-! ## With the index in memory, and with the saved one -/

/-- With the index that is still there, an opened log is opened as before. -/
theorem Opened.repeats_kept (h : Opened found after payloads) : Repeats found after after := by
  refine h.repeats h.works rfl ?_ rfl
  by_cases hnil : after.index.entries = []
  · -- a snapshot that is loaded now has nothing to tell of an empty log
    refine BlockIndex.eq_of_entries ?_
    rw [h.empty hnil, hnil]
    exact List.filter_eq_nil_iff.2 (by simp)
  · have hloaded : after.loadSnapshot = after := by
      rw [loadSnapshot, if_neg]
      simpa [BlockIndex.isEmpty] using hnil
    rw [hloaded, h.stored]
    exact BlockIndex.truncateFrom_eq_self h.lists.below

/-- The log over a storage, without what was in memory of its index, and with another window. -/
def renewed (log : IndexedLog) (storage : Storage) (windowSize : Nat) : IndexedLog where
  storage := storage
  sampling :=
    { threshold := log.sampling.threshold, windowSize, snapshotPath := log.sampling.snapshotPath }

/-- Closing the index leaves a working log, if the snapshot goes elsewhere. -/
theorem persist_works {snapshot : String} {r : Except LogError Unit} (h : after.storage.Works)
    (htidy : after.storage.files.Tidy) (hpath : after.sampling.snapshotPath = some snapshot)
    (hapart : after.storage.ApartFrom snapshot) (hp : persist.run after = (r, closed)) :
    closed.storage.Works ∧ closed.storage.stored = after.storage.stored := by
  obtain ⟨bytes, flushes, hm⟩ | ⟨path, handle, hm⟩ := Storage.isOpen_cases h.isOpen
  · have hclosed : closed.storage = { after.storage with files := closed.storage.files } := by
      obtain ⟨-, hsame, -⟩ | ⟨_, files, -, -, -, hafter⟩ := persist_cases hp
      · rw [hsame]
      · rw [hafter]
    rw [hclosed]
    refine ⟨⟨?_, h.isOpen, h.passes⟩, ?_⟩
    · simp [Storage.Sound, hm]
    · simp [Storage.stored, hm]
  · have hat : after.storage.OpenAt path handle.number := ⟨h, by rw [Storage.site, hm], htidy⟩
    obtain ⟨key, hkey, -⟩ := hat.placed.1.resolved
    have hmiss : ∀ other, after.sampling.snapshotPath = some other →
        FileSystem.Misses other key ∧
          FileSystem.Misses (BlockIndex.Snapshot.draftPath other) key := by
      rw [hpath]
      rintro other ⟨⟩
      exact hapart path handle.number key hat.site hkey
    obtain ⟨hopen, hstored⟩ := persist_keeps hat hkey hmiss hp
    exact ⟨hopen.works, hstored⟩

/-- With the index that closing saved, an opened log is opened as before. -/
theorem Opened.repeats_saved (h : Opened found after payloads) {snapshot : String}
    (htidy : after.storage.files.Tidy) (hstorable : after.index.Storable)
    (hpath : after.sampling.snapshotPath = some snapshot)
    (hapart : after.storage.ApartFrom snapshot) (hp : persist.run after = (.ok (), closed))
    (windowSize : Nat) : Repeats found after (after.renewed closed.storage windowSize) := by
  obtain ⟨hworks, hstored⟩ := persist_works h.works htidy hpath hapart hp
  obtain ⟨-, -, hnone⟩ | ⟨path, files, -, hsome, hsave, hclosed⟩ := persist_cases hp
  · rw [hnone h.isOpen] at hpath
    simp at hpath
  obtain rfl : snapshot = path := by
    rw [hpath] at hsome
    simpa using hsome
  have hread : BlockIndex.Snapshot.read closed.storage.files snapshot = .ok (some after.index) := by
    rw [hclosed]
    exact (saveSnapshot_ok htidy hsave).read hstorable
  have hloaded : (after.renewed closed.storage windowSize).loadSnapshot
      = { after.renewed closed.storage windowSize with index := after.index } :=
    loadSnapshot_of_read rfl hpath hread
  refine h.repeats hworks hstored ?_ rfl
  rw [hloaded]
  refine BlockIndex.truncateFrom_eq_self ?_
  rw [show (after.renewed closed.storage windowSize).storage.stored = closed.storage.stored from rfl,
    hstored, h.stored]
  exact h.lists.below

/-- A log of records from position 0 on and a torn end, with an index of some of its records, is opened
once. Opening it again, with the index in memory or over what closing saved of it, finds and leaves
the same. -/
theorem recover_again {tail : Bytes} (hs : log.storage.Sound) (hplan : log.storage.Faultless)
    (hlog : log.storage.stored = Frame.encodeRun 0 payloads ++ tail)
    (hr : Frame.Readable 0 payloads) (htail : ∀ address r, Frame.decode tail address ≠ .ok (some r))
    (hlists : log.loadSnapshot.index.Lists payloads)
    (h : (recover commit).run log = (.ok found, after)) :
    Repeats found after after ∧
      ∀ snapshot closed, after.sampling.snapshotPath = some snapshot →
        after.storage.ApartFrom snapshot → after.storage.files.Tidy → after.index.Storable →
        persist.run after = (.ok (), closed) →
          ∀ windowSize, Repeats found after (after.renewed closed.storage windowSize) := by
  have hsuits : log.loadSnapshot.index.Suits log.storage.stored :=
    ⟨payloads, hr, hlists, .inr (hlog ▸ List.prefix_append ..)⟩
  have hfirst : ∀ r, Frame.decode log.storage.stored 0 = .ok (some r) → r.position = 0 := by
    intro r hd
    rw [hlog] at hd
    cases payloads with
    | nil => exact absurd hd (htail 0 r)
    | cons x rest =>
      rw [Frame.decode_run hr (List.prefix_append ..)] at hd
      simp only [Except.ok.injEq, Option.some.injEq] at hd
      rw [← hd]
  obtain ⟨kept, hopened⟩ := recover_opened hs hplan hsuits hfirst h
  exact ⟨hopened.repeats_kept, fun snapshot closed hpath hapart htidy hstorable hp windowSize =>
    hopened.repeats_saved htidy hstorable hpath hapart hp windowSize⟩

/-- Four records, of which the first and the third get entries, two bytes of a fifth one, and a place
for a snapshot. -/
def sampledLog : IndexedLog where
  storage := { medium := .memory true (Frame.encodeRun 0 [[1, 2, 3], [4], [5], [6]] ++ [4, 0]) 0 }
  sampling := { threshold := 30, windowSize := 16, snapshotPath := some "log.idx" }

theorem recover_again_sampled :
    ∃ found after closed, (recover (-1)).run sampledLog = (.ok found, after) ∧
      after.index.entries = [⟨0, 0⟩, ⟨4, 36⟩] ∧ persist.run after = (.ok (), closed) ∧
      Repeats found after after ∧ Repeats found after (after.renewed closed.storage 256) := by
  have hs : sampledLog.storage.Sound := trivial
  have hreadable : Frame.Readable 0 [[1, 2, 3], [4], [5], [6]] := by
    simp [Frame.Readable, Frame.Framable]
  have htail : ∀ address r, Frame.decode [4, 0] address ≠ .ok (some r) := by
    simp [Frame.decode, Frame.headerLength]
  have hlists : sampledLog.loadSnapshot.index.Lists [[1, 2, 3], [4], [5], [6]] := by
    unfold BlockIndex.Lists
    decide +kernel
  have hrun := Attempt.run_of_toOption (x := recover (-1)) (s := sampledLog)
    (a := { nextPosition := 6, lastPosition := some 5, scanned := 4, truncatedTail := true })
    (by decide +kernel)
  have hentries : ((recover (-1)).run sampledLog).2.index.entries = [⟨0, 0⟩, ⟨4, 36⟩] := by
    decide +kernel
  have hclose := Attempt.run_of_toOption (x := persist) (s := ((recover (-1)).run sampledLog).2)
    (a := ()) (by decide +kernel)
  have hconfined := recover_confined hrun
  have happly := recover_again hs (fun _ _ => rfl) rfl hreadable htail hlists hrun
  refine ⟨_, _, _, hrun, hentries, hclose, happly.1,
    happly.2 "log.idx" _ (recover_snapshotPath hs hrun) ?_ (hconfined.tidy FileSystem.tidy_empty) ?_
      hclose 256⟩
  · intro path number key hsite
    rw [hconfined.site] at hsite
    simp [Storage.site, sampledLog] at hsite
  · exact ⟨by rw [BlockIndex.size, hentries]; decide, by rw [hentries]; decide⟩

end IndexedLog

end PartitionLog
