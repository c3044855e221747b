import PartitionLog.Proofs.Scan

/-!
# Recovering a log

`recover` on a log whose index describes it: if it fails, the stored bytes are what they were and the
index still describes them (`recover_error`); if it succeeds, the log is a run of frames, the index
describes it, and what was found is the end of that run (`recover_ok`). Bytes are cut off only at a
torn frame beyond the commit position. With no index to start from, the run is what reading frame
after frame gives (`recover_keeps_longest_run`).
-/

namespace PartitionLog

/-- The frame at `address` has less than a header left, or it reaches or passes the end. -/
def Frame.Torn (log : Bytes) (address : Nat) : Prop :=
  log.length - address < headerLength ∨
    log.length ≤ address + lengthFor (lengthField (log.drop address))

namespace IndexedLog

/-! ## Before the scan -/

/-- A scan from the beginning can take any position for its first record. -/
theorem at_first {reading : Reading} {log : Bytes} (index : BlockIndex) (h : reading.Sees log)
    (hempty : index.entries = []) :
    ∃ start, Scan.At { reading := reading, index := index } log 0 start [] := by
  have hbelow : index.Below 0 := by intro e he; rw [hempty] at he; simp at he
  have hdescribes : index.Describes log :=
    ⟨fun e he => by rw [hempty] at he; simp at he, by rw [hempty]; exact .nil⟩
  cases hd : Frame.decode (log.drop 0) 0 with
  | error e =>
    exact ⟨0, h, hdescribes, trivial, rfl, by omega, fun r hr => by rw [hd] at hr; simp at hr,
      .inl hbelow⟩
  | ok found =>
    cases found with
    | none =>
      exact ⟨0, h, hdescribes, trivial, rfl, by omega, fun r hr => by rw [hd] at hr; simp at hr,
        .inl hbelow⟩
    | some r =>
      refine ⟨r.position, h, hdescribes, trivial, rfl, by omega, ?_, .inl hbelow⟩
      intro s hs _
      rw [hd] at hs
      simp only [Except.ok.injEq, Option.some.injEq] at hs
      simp [hs]

theorem last?_eq_none {index : BlockIndex} (h : index.last? = none) : index.entries = [] := by
  simpa [BlockIndex.last?] using h

/-- The entries stay if the last one names a record, or all are forgotten. -/
theorem verifyLast_cases {index after : BlockIndex} {reading final : Reading} {log : Bytes}
    (h : reading.Sees log) (hv : verifyLast index reading = (after, final)) :
    final.Sees log ∧ ((after = index ∧ ∀ last, index.last? = some last → last.Names log) ∨
      after = index.clear) := by
  unfold verifyLast at hv
  split at hv
  · next hl =>
    simp only [Prod.mk.injEq] at hv
    obtain ⟨rfl, rfl⟩ := hv
    exact ⟨h, .inl ⟨rfl, fun last hlast => by rw [hl] at hlast; simp at hlast⟩⟩
  · next entry hl =>
    split at hv
    · next r us hread =>
      obtain ⟨hus, hreads⟩ := Reading.readAt_spec h hread
      simp only [Prod.mk.injEq] at hv
      obtain ⟨rfl, rfl⟩ := hv
      refine ⟨hus, ?_⟩
      split
      · next hposition =>
        refine .inl ⟨rfl, fun last hlast => ?_⟩
        rw [hl, Option.some.injEq] at hlast
        subst hlast
        exact ⟨r, hreads.some, hposition⟩
      · exact .inr rfl
    · next answer us hno hread =>
      simp only [Prod.mk.injEq] at hv
      obtain ⟨rfl, rfl⟩ := hv
      exact ⟨(Reading.readAt_spec h hread).1, .inr rfl⟩

/-- The scan starts behind a run of frames: at the last entry if its record is there, else at the
beginning. -/
theorem verifyLast_at {index after : BlockIndex} {reading final : Reading} {log : Bytes}
    (h : reading.Sees log) (hd : index.Describes log) (hb : index.Below log.length)
    (hv : verifyLast index reading = (after, final)) :
    ∃ start before, Scan.At { reading := final, index := after } log
        (after.lastStart Storage.firstAddress) start before ∧
      (before ≠ [] → ∃ r, Frame.decode (log.drop (after.lastStart Storage.firstAddress))
        (after.lastStart Storage.firstAddress) = .ok (some r)) := by
  obtain ⟨hsees, hcases⟩ := verifyLast_cases h hv
  have hempty : after.entries = [] → ∃ start before, Scan.At { reading := final, index := after } log
        (after.lastStart Storage.firstAddress) start before ∧
      (before ≠ [] → ∃ r, Frame.decode (log.drop (after.lastStart Storage.firstAddress))
        (after.lastStart Storage.firstAddress) = .ok (some r)) := by
    intro hnil
    obtain ⟨start, hat⟩ := at_first after hsees hnil
    have hstart : after.lastStart Storage.firstAddress = 0 := by
      rw [BlockIndex.lastStart, BlockIndex.last?, hnil]
      rfl
    exact ⟨start, [], by rw [hstart]; exact hat, by simp⟩
  obtain ⟨rfl, hnames⟩ | rfl := hcases
  · cases hl : after.last? with
    | none => exact hempty (last?_eq_none hl)
    | some entry =>
      obtain ⟨r, hr, hpos⟩ := hnames entry hl
      have hmem : entry ∈ after.entries := List.mem_of_getLast? hl
      have hle := Nat.le_of_lt (hb entry hmem)
      obtain ⟨start, before, hreadable, hbytes, hend⟩ := hd.marks entry hmem hle
      have hstart : after.lastStart Storage.firstAddress = entry.address := by
        simp [BlockIndex.lastStart, hl]
      rw [hstart]
      refine ⟨start, before, ⟨hsees, hd, hreadable, hbytes, hle, ?_, ?_⟩, fun _ => ⟨r, hr⟩⟩
      · intro s hs _
        rw [hr] at hs
        simp only [Except.ok.injEq, Option.some.injEq] at hs
        rw [← hs, hpos, hend]
      · exact .inr ⟨BlockIndex.below_last hd hl, r, hr⟩
  · exact hempty rfl

/-! ## Behind the scan -/

theorem foldl_add (records : List Record) (found : Recovered) :
    (records.foldl Recovered.add found).nextPosition
        = (records.getLast?.map Record.nextPosition).getD found.nextPosition ∧
      (records.foldl Recovered.add found).lastPosition
        = ((records.getLast?.map Record.position).or found.lastPosition) ∧
      (records.foldl Recovered.add found).truncatedTail = found.truncatedTail := by
  induction records generalizing found with
  | nil => simp
  | cons r rest ih =>
    obtain ⟨h1, h2, h3⟩ := ih (found.add r)
    rw [List.foldl_cons, h1, h2, h3]
    cases rest with
    | nil => simp [Recovered.add]
    | cons s rest => simp [Recovered.add, List.getLast?_cons]

variable {s t : Storage}

/-- The header at the address is too short to be read, or it is read and tells the frame's length. -/
theorem isTornTail_cases {address : Nat} {r : Except LogError Bool} (hs : s.Sound)
    (h : (isTornTail address s.stored.length).run s = (r, t)) :
    (t = s ∨ ∃ header, (Storage.read address Frame.headerLength).run s = (header, t)) ∧
      ((∃ e, r = .error e ∧ (Storage.read address Frame.headerLength).run s = (.error e, t)) ∨
        ∃ torn, r = .ok torn ∧ (torn = true ↔ Frame.Torn s.stored address)) := by
  unfold isTornTail at h
  split at h
  · next hshort =>
    simp only [Attempt.run_pure, Prod.mk.injEq] at h
    obtain ⟨rfl, rfl⟩ := h
    exact ⟨.inl rfl, .inr ⟨true, rfl, ⟨fun _ => .inl hshort, fun _ => rfl⟩⟩⟩
  · next hlong =>
    rw [Attempt.run_bind] at h
    split at h
    · next header u hu =>
      have hheader := (Storage.read_spec hs hu).2
      simp only [Bytes.slice] at hheader
      have hfull : ¬ header.length < Frame.headerLength := by
        rw [hheader, List.length_take, List.length_drop]
        omega
      have hfield : Frame.lengthField header = Frame.lengthField (s.stored.drop address) := by
        unfold Frame.lengthField
        rw [hheader, Bytes.slice_take (by decide)]
      rw [if_neg hfull, Attempt.run_pure, Prod.mk.injEq, hfield] at h
      obtain ⟨rfl, rfl⟩ := h
      refine ⟨.inr ⟨_, hu⟩, .inr ⟨_, rfl, ?_⟩⟩
      rw [decide_eq_true_iff]
      exact ⟨.inr, fun htorn => htorn.resolve_left hlong⟩
    · next e u hu =>
      simp only [Prod.mk.injEq] at h
      obtain ⟨rfl, rfl⟩ := h
      exact ⟨.inr ⟨_, hu⟩, .inl ⟨e, rfl, hu⟩⟩

theorem isTornTail_spec {address : Nat} {r : Except LogError Bool} (hs : s.Sound)
    (h : (isTornTail address s.stored.length).run s = (r, t)) :
    s.Keeps t ∧ (r = .ok true → Frame.Torn s.stored address) := by
  obtain ⟨hstate, hanswer⟩ := isTornTail_cases hs h
  constructor
  · obtain rfl | ⟨header, hread⟩ := hstate
    · exact ⟨hs, rfl⟩
    · exact (Storage.read_spec hs hread).1
  · obtain ⟨e, rfl, -⟩ | ⟨torn, rfl, htorn⟩ := hanswer
    · simp
    · simpa using htorn.1

/-- Cutting fails with a read, at damage inside the log or at a committed position; else the storage
is truncated. -/
theorem cutTail_cases {bad : Nat} {damage : Damage} {next commit : Int} {r : Except LogError Unit}
    (hs : s.Sound) (h : (cutTail bad damage s.stored.length next commit).run s = (r, t)) :
    (s.Keeps t ∧
      ((∃ e, r = .error e ∧ ∀ place why, e ≠ .corruption place why) ∨
        (r = .error (.corruption bad damage) ∧ ¬ Frame.Torn s.stored bad) ∨
        (r = .error (.corruption bad (.committed damage next commit)) ∧ next ≤ commit))) ∨
      (Frame.Torn s.stored bad ∧ commit < next ∧
        ∃ u, s.Keeps u ∧ (Storage.truncate bad).run u = (r, t)) := by
  rw [cutTail, Attempt.run_bind] at h
  split at h
  · next torn u hu =>
    have hk := (isTornTail_spec hs hu).1
    obtain ⟨-, ⟨e, he, -⟩ | ⟨_, hanswer, htorn⟩⟩ := isTornTail_cases hs hu
    · simp at he
    simp only [Except.ok.injEq] at hanswer
    subst hanswer
    split at h
    · next hno =>
      simp only [Attempt.run_fail, Prod.mk.injEq] at h
      obtain ⟨rfl, rfl⟩ := h
      exact .inl ⟨hk, .inr (.inl ⟨rfl, fun hyes => by simp [htorn.2 hyes] at hno⟩)⟩
    · next hyes =>
      have hyes := htorn.1 (by simpa using hyes)
      split at h
      · next hcommit =>
        simp only [Attempt.run_fail, Prod.mk.injEq] at h
        obtain ⟨rfl, rfl⟩ := h
        exact .inl ⟨hk, .inr (.inr ⟨rfl, hcommit⟩)⟩
      · exact .inr ⟨hyes, by omega, u, hk, h⟩
  · next e u hu =>
    simp only [Prod.mk.injEq] at h
    obtain ⟨rfl, rfl⟩ := h
    have hk := (isTornTail_spec hs hu).1
    obtain ⟨-, ⟨_, he, hread⟩ | ⟨_, hok, -⟩⟩ := isTornTail_cases hs hu
    · simp only [Except.error.injEq] at he
      subst he
      exact .inl ⟨hk, .inl ⟨e, rfl, (Storage.read_spec hs hread).2⟩⟩
    · simp at hok

theorem cutTail_error {bad : Nat} {damage : Damage} {next commit : Int} {e : LogError}
    (hs : s.Sound) (h : (cutTail bad damage s.stored.length next commit).run s = (.error e, t)) :
    s.Keeps t := by
  obtain ⟨hk, -⟩ | ⟨-, -, u, hk, hcut⟩ := cutTail_cases hs h
  · exact hk
  · exact hk.trans (Storage.truncate_error hk.1 hcut)

theorem cutTail_ok {bad : Nat} {damage : Damage} {next commit : Int} (hs : s.Sound)
    (h : (cutTail bad damage s.stored.length next commit).run s = (.ok (), t)) :
    t.Sound ∧ t.stored = s.stored.take bad ∧ Frame.Torn s.stored bad ∧ commit < next := by
  obtain ⟨-, ⟨e, he, -⟩ | ⟨he, -⟩ | ⟨he, -⟩⟩ | ⟨htorn, hcommit, u, hk, hcut⟩ := cutTail_cases hs h
  · simp at he
  · simp at he
  · simp at he
  · obtain ⟨ht, -, htaken⟩ := Storage.truncate_ok hk.1 hcut
    exact ⟨ht, by rw [htaken, hk.2], htorn, hcommit⟩

/-! ## The whole recovery -/

/-- What a recovery that succeeds leaves and finds: a run of frames from `start` on. -/
structure RecoversTo (log after : IndexedLog) (commit : Int) (found : Recovered) (start : Int)
    (payloads : List Bytes) : Prop where
  sound : after.storage.Sound
  readable : Frame.Readable start payloads
  stored : after.storage.stored = Frame.encodeRun start payloads
  bytes : Frame.encodeRun start payloads <+: log.storage.stored
  describes : after.index.Describes after.storage.stored
  below : after.index.Below after.storage.stored.length
  snapshotPath : after.sampling.snapshotPath = log.sampling.snapshotPath
  next : found.nextPosition
    = ((Frame.recordsOf start 0 payloads).getLast?.map Record.nextPosition).getD 0
  last : found.lastPosition = (Frame.recordsOf start 0 payloads).getLast?.map Record.position
  cut : (found.truncatedTail = false ∧ after.storage.stored = log.storage.stored) ∨
    (found.truncatedTail = true ∧ commit < found.nextPosition ∧
      Frame.Torn log.storage.stored after.storage.stored.length ∧
      ∃ damage, Frame.decode (log.storage.stored.drop after.storage.stored.length)
        after.storage.stored.length = .error (.corruption after.storage.stored.length damage))

/-- What a recovery that fails leaves: the stored bytes, and an index that describes them. -/
structure Untouched (log after : IndexedLog) : Prop where
  keeps : log.storage.Keeps after.storage
  describes : after.index.Describes log.storage.stored
  sampling : after.sampling = log.sampling

def Settles (log : IndexedLog) (commit : Int) : Except LogError Recovered → IndexedLog → Prop
  | .error _, after => log.Untouched after
  | .ok found, after => ∃ start payloads, log.RecoversTo after commit found start payloads

theorem getLast?_recordsOf_append {start : Int} {before scanned : List Bytes} {address : Nat}
    (ha : address = (Frame.encodeRun start before).length) (h : scanned = [] → before = []) :
    (Frame.recordsOf start 0 (before ++ scanned)).getLast?
      = (Frame.recordsOf (start + Frame.span before) address scanned).getLast? := by
  rw [Frame.recordsOf_append, Nat.zero_add, ← ha, List.getLast?_append]
  cases scanned with
  | nil => simp [h rfl, Frame.recordsOf]
  | cons x rest => simp [Frame.recordsOf, List.getLast?_cons]

/-- A scan that starts at a record reads it, so it ends further on. -/
theorem ended_nil {scan : Scan} {bytes : Bytes} {start : Int} {address : Nat} {before : List Bytes}
    {stop : Option (Nat × Damage)} (hlen : (Frame.encodeRun start before).length = address)
    (hended : scan.Ended bytes start before stop)
    (hfirst : before ≠ [] → ∃ r, Frame.decode (bytes.drop address) address = .ok (some r)) :
    before = [] := by
  by_cases hb : before = []
  · exact hb
  · obtain ⟨r, hr⟩ := hfirst hb
    have hstop := hended.stopped
    cases stop with
    | none =>
      rw [← hlen, List.drop_eq_nil_iff.2 (Nat.le_of_eq (by rw [hstop]))] at hr
      simp at hr
    | some bad =>
      obtain ⟨hbad, hd⟩ := hstop
      rw [hbad, hlen, hr] at hd
      simp at hd

/-- Behind its scan, a recovery fails with it, ends at the end of the log, or cuts the log at damage
if that is allowed. -/
theorem recoverTail_cases {log after : IndexedLog} {commit : Int} {endAddress : Nat}
    {reading : Reading} {r : Except LogError Recovered} {scan : Scan}
    {outcome : Except LogError (Option (Nat × Damage))}
    (hrun : Scan.run log.sampling.threshold (log.index.lastStart Storage.firstAddress)
      { reading := reading, index := log.index } = (outcome, scan))
    (h : (recoverTail commit endAddress reading).run log = (r, after)) :
    (∃ e, outcome = .error e ∧ r = .error e ∧
      after = { log with storage := scan.reading.storage, index := scan.index }) ∨
    (outcome = .ok none ∧ r = .ok scan.recovered ∧
      after = ⟨scan.reading.storage, scan.index,
        { log.sampling with isOpen := true, sinceEntry := scan.sinceEntry }⟩) ∨
    ∃ bad damage, outcome = .ok (some (bad, damage)) ∧
      ((∃ e storage, (cutTail bad damage endAddress scan.recovered.nextPosition commit).run
          scan.reading.storage = (.error e, storage) ∧ r = .error e ∧
          after = { log with storage := storage, index := scan.index }) ∨
        ∃ storage, (cutTail bad damage endAddress scan.recovered.nextPosition commit).run
          scan.reading.storage = (.ok (), storage) ∧
          r = .ok { scan.recovered with truncatedTail := true } ∧
          after = ⟨storage, scan.index.truncateFrom bad,
            { log.sampling with isOpen := true, sinceEntry := scan.sinceEntry }⟩) := by
  unfold Attempt.run recoverTail at h
  dsimp only at h
  rw [hrun] at h
  dsimp only at h
  split at h
  · next e =>
    simp only [Prod.mk.injEq] at h
    obtain ⟨rfl, rfl⟩ := h
    exact .inl ⟨e, rfl, rfl, rfl⟩
  · simp only [Prod.mk.injEq] at h
    obtain ⟨rfl, rfl⟩ := h
    exact .inr (.inl ⟨rfl, rfl, rfl⟩)
  · next bad damage =>
    refine .inr (.inr ⟨bad, damage, rfl, ?_⟩)
    split at h
    · next e storage hcut =>
      simp only [Prod.mk.injEq] at h
      obtain ⟨rfl, rfl⟩ := h
      exact .inl ⟨e, storage, hcut, rfl, rfl⟩
    · next storage hcut =>
      simp only [Prod.mk.injEq] at h
      obtain ⟨rfl, rfl⟩ := h
      exact .inr ⟨storage, hcut, rfl, rfl⟩

theorem recoverTail_spec (log : IndexedLog) {after : IndexedLog} {commit : Int} {reading : Reading}
    {start : Int} {before : List Bytes} {r : Except LogError Recovered} {bytes : Bytes}
    (hat : Scan.At { reading := reading, index := log.index } bytes
      (log.index.lastStart Storage.firstAddress) start before)
    (hfirst : before ≠ [] → ∃ r, Frame.decode
      (bytes.drop (log.index.lastStart Storage.firstAddress))
      (log.index.lastStart Storage.firstAddress) = .ok (some r))
    (hlog : log.storage.stored = bytes)
    (h : (recoverTail commit bytes.length reading).run log = (r, after)) :
    log.Settles commit r after := by
  subst hlog
  generalize hrun : Scan.run log.sampling.threshold (log.index.lastStart Storage.firstAddress)
    { reading := reading, index := log.index } = result
  obtain ⟨outcome, scan⟩ := result
  obtain ⟨hsees, hdescribes, hok⟩ := Scan.run_spec _ _ _ hat hrun
  have hkeeps : log.storage.Keeps scan.reading.storage := ⟨hsees.sound, hsees.stored⟩
  -- what a scan that ended well has behind it, and what it found there
  have hfound : ∀ stop, outcome = .ok stop → ∃ payloads, scan.Ended log.storage.stored start payloads
      stop ∧ scan.recovered.nextPosition
        = ((Frame.recordsOf start 0 payloads).getLast?.map Record.nextPosition).getD 0 ∧
      scan.recovered.lastPosition = (Frame.recordsOf start 0 payloads).getLast?.map Record.position ∧
      scan.recovered.truncatedTail = false := by
    intro stop hstop
    obtain ⟨scanned, hended, hfold⟩ := hok stop hstop
    have hsome : scanned = [] → before = [] := fun hnil =>
      ended_nil hat.length (by rw [hnil, List.append_nil] at hended; exact hended) hfirst
    obtain ⟨hnext, hlast, htail⟩ := foldl_add (Frame.recordsOf (start + Frame.span before)
      (log.index.lastStart Storage.firstAddress) scanned) {}
    rw [← hfold, ← getLast?_recordsOf_append hat.length.symm hsome] at hnext hlast
    rw [← hfold] at htail
    exact ⟨before ++ scanned, hended, hnext, by simpa using hlast, htail⟩
  obtain ⟨e, -, rfl, rfl⟩ | ⟨rfl, rfl, rfl⟩ | ⟨bad, damage, rfl, hcut⟩ := recoverTail_cases hrun h
  · exact ⟨hkeeps, hdescribes, rfl⟩
  · obtain ⟨payloads, hended, hnext, hlast, htail⟩ := hfound none rfl
    have hall : Frame.encodeRun start payloads = log.storage.stored := hended.stopped
    exact ⟨start, payloads, {
      sound := hsees.sound
      readable := hended.readable
      stored := hsees.stored.trans hall.symm
      bytes := hended.bytes
      describes := hsees.stored ▸ hdescribes
      below := by simpa only [hsees.stored, hall] using hended.below
      snapshotPath := rfl
      next := hnext
      last := hlast
      cut := .inl ⟨htail, hsees.stored⟩ }⟩
  · obtain ⟨payloads, hended, hnext, hlast, -⟩ := hfound _ rfl
    obtain ⟨hbad, hd⟩ := hended.stopped
    rw [← hsees.stored] at hcut
    obtain ⟨e, storage, hcut, rfl, rfl⟩ | ⟨storage, hcut, rfl, rfl⟩ := hcut
    · exact ⟨hkeeps.trans (cutTail_error hsees.sound hcut), hdescribes, rfl⟩
    · obtain ⟨hsound, hstored, htorn, hcommit⟩ := cutTail_ok hsees.sound hcut
      rw [hsees.stored] at hstored htorn
      have hrun : storage.stored = Frame.encodeRun start payloads := by
        rw [hstored, hbad]
        exact (List.prefix_iff_eq_take.1 hended.bytes).symm
      have hlen : storage.stored.length = bad := by rw [hrun, hbad]
      exact ⟨start, payloads, {
        sound := hsound
        readable := hended.readable
        stored := hrun
        bytes := hended.bytes
        describes := (BlockIndex.describes_restrict hdescribes _).of_isPrefix
          (hrun ▸ hended.bytes)
        below := by rw [hlen]; exact BlockIndex.below_truncateFrom _ _
        snapshotPath := rfl
        next := hnext
        last := hlast
        cut := .inr ⟨rfl, hcommit, by rw [hlen]; exact htorn, damage, by rw [hlen]; exact hd⟩ }⟩

theorem loadSnapshot_of_none {log : IndexedLog} (h : log.sampling.snapshotPath = none) :
    log.loadSnapshot = log := by
  unfold loadSnapshot
  split
  · rw [h]
  · rfl

theorem loadSnapshot_of_read {log : IndexedLog} {snapshot : String} {index : BlockIndex}
    (hempty : log.index.isEmpty = true) (hpath : log.sampling.snapshotPath = some snapshot)
    (hread : BlockIndex.Snapshot.read log.storage.files snapshot = .ok (some index)) :
    log.loadSnapshot = { log with index := index } := by
  unfold loadSnapshot
  rw [if_pos hempty]
  simp only [hpath, hread]

/-- A log takes the snapshot for an empty index, or stays as it is. -/
theorem loadSnapshot_cases (log : IndexedLog) : log.loadSnapshot = log ∨
    ∃ path index, log.sampling.snapshotPath = some path ∧
      BlockIndex.Snapshot.read log.storage.files path = .ok (some index) ∧
      log.loadSnapshot = { log with index := index } := by
  unfold loadSnapshot
  split
  · split
    · exact .inl rfl
    · next path hpath =>
      split
      · next index hread => exact .inr ⟨path, index, hpath, hread, rfl⟩
      · exact .inl rfl
  · exact .inl rfl

/-- A snapshot changes nothing but the index. -/
theorem loadSnapshot_eq (log : IndexedLog) :
    log.loadSnapshot = { log with index := log.loadSnapshot.index } := by
  obtain hsame | ⟨path, index, -, -, hloaded⟩ := log.loadSnapshot_cases
  · rw [hsame]
  · rw [hloaded]

/-- A recovery fails at the end of the storage, or checks the entries before it and scans the tail. -/
theorem recover_cases {log after : IndexedLog} {commit : Int} {r : Except LogError Recovered}
    (hs : log.storage.Sound) (h : (recover commit).run log = (r, after)) :
    (∃ e storage, Storage.endAddress?.run log.storage = (.error e, storage) ∧ r = .error e ∧
      log.storage.Keeps storage ∧
      after = { log with storage := storage, index := log.loadSnapshot.index }) ∨
    ∃ storage index reading,
      Storage.endAddress?.run log.storage = (.ok log.storage.stored.length, storage) ∧
      (⟨.ofWindow log.sampling.windowSize, storage⟩ : Reading).Sees log.storage.stored ∧
      verifyLast (log.loadSnapshot.index.truncateFrom log.storage.stored.length)
        ⟨.ofWindow log.sampling.windowSize, storage⟩ = (index, reading) ∧
      (recoverTail commit log.storage.stored.length reading).run
        { log with storage := reading.storage, index := index } = (r, after) := by
  unfold Attempt.run recover at h
  rw [loadSnapshot_eq] at h
  dsimp only at h
  split at h
  · next e storage he =>
    simp only [Prod.mk.injEq] at h
    obtain ⟨rfl, rfl⟩ := h
    exact .inl ⟨e, storage, he, rfl, (Storage.endAddress_spec hs he).1, rfl⟩
  · next endAddress storage he =>
    obtain ⟨hk, hend⟩ := Storage.endAddress_spec hs he
    obtain rfl := hend _ rfl
    have hsees := Reading.Sees.ofWindow hk.1 log.sampling.windowSize
    rw [hk.2] at hsees
    exact .inr ⟨storage, _, _, he, hsees, rfl, h⟩

/-- A recovery is not told the end of the storage, or it settles the end of the log, if the entries
inside the storage describe the log. -/
theorem recover_settled {log after : IndexedLog} {commit : Int} {r : Except LogError Recovered}
    (hs : log.storage.Sound)
    (hd : (log.loadSnapshot.index.truncateFrom log.storage.stored.length).Describes
      log.storage.stored)
    (h : (recover commit).run log = (r, after)) :
    (∃ e storage, r = .error e ∧ log.storage.Keeps storage ∧
        after = { log with storage := storage, index := log.loadSnapshot.index }) ∨
      log.Settles commit r after := by
  obtain ⟨e, storage, -, rfl, hk, rfl⟩ | ⟨storage, index, reading, -, hsees, hv, h⟩ :=
    recover_cases hs h
  · exact .inl ⟨e, storage, rfl, hk, rfl⟩
  · obtain ⟨start, before, hat, hfirst⟩ := verifyLast_at hsees hd
      (BlockIndex.below_truncateFrom _ _) hv
    have hspec := recoverTail_spec { log with storage := reading.storage, index := index }
      hat hfirst hat.sees.stored h
    have hstored : reading.storage.stored = log.storage.stored := hat.sees.stored
    refine .inr ?_
    cases r with
    | error e =>
      obtain ⟨hkeeps, hdescribes, hsampling⟩ := hspec
      exact ⟨⟨hkeeps.1, hkeeps.2.trans hstored⟩, by simpa only [hstored] using hdescribes,
        hsampling⟩
    | ok found =>
      obtain ⟨start, payloads, hto⟩ := hspec
      exact ⟨start, payloads, { hto with
        bytes := by simpa only [hstored] using hto.bytes
        cut := by simpa only [hstored] using hto.cut }⟩

/-- What a recovery comes to, where the entries that it starts from describe the log. -/
theorem recover_loaded {log after : IndexedLog} {commit : Int} {r : Except LogError Recovered}
    (hs : log.storage.Sound) (hd : log.loadSnapshot.index.Describes log.storage.stored)
    (h : (recover commit).run log = (r, after)) : log.Settles commit r after := by
  obtain ⟨e, storage, rfl, hk, rfl⟩ | hsettles :=
    recover_settled hs (BlockIndex.describes_restrict hd _) h
  · exact ⟨hk, hd, rfl⟩
  · exact hsettles

theorem recover_spec {log after : IndexedLog} {commit : Int} {r : Except LogError Recovered}
    (hs : log.storage.Sound) (hsnap : log.sampling.snapshotPath = none)
    (hd : log.index.Describes log.storage.stored) (h : (recover commit).run log = (r, after)) :
    log.Settles commit r after :=
  recover_loaded hs (by rw [loadSnapshot_of_none hsnap]; exact hd) h

/-- However a recovery ends, the entries that it adds name records that it read. -/
theorem recover_loaded_names {log after : IndexedLog} {commit : Int}
    {r : Except LogError Recovered} (hs : log.storage.Sound)
    (h : (recover commit).run log = (r, after)) :
    ∀ e ∈ after.index.entries,
      e ∈ log.loadSnapshot.index.entries ∨ e.Names log.storage.stored := by
  obtain ⟨e, storage, -, -, -, rfl⟩ | ⟨storage, index, reading, -, hsees, hv, h⟩ :=
    recover_cases hs h
  · exact fun e he => .inl he
  · obtain ⟨hreading, hcases⟩ := verifyLast_cases hsees hv
    have hmem : ∀ e ∈ index.entries,
        e ∈ (log.loadSnapshot.index.truncateFrom log.storage.stored.length).entries := by
      obtain ⟨rfl, -⟩ | rfl := hcases
      · exact fun e he => he
      · simp [BlockIndex.clear, BlockIndex.empty]
    generalize hrun : Scan.run log.sampling.threshold (index.lastStart Storage.firstAddress)
      { reading := reading, index := index } = result
    obtain ⟨outcome, scan⟩ := result
    have hscan : ∀ e ∈ scan.index.entries,
        e ∈ log.loadSnapshot.index.entries ∨ e.Names log.storage.stored :=
      fun e he => (Scan.run_names _ _ _ hreading hrun e he).imp_left
        fun hi => (List.mem_filter.1 (hmem e hi)).1
    obtain ⟨e, -, -, rfl⟩ | ⟨-, -, rfl⟩ | ⟨bad, damage, -, ⟨e, _, -, -, rfl⟩ | ⟨_, -, -, rfl⟩⟩ :=
      recoverTail_cases hrun h
    · exact hscan
    · exact hscan
    · exact hscan
    · exact fun e he => hscan e (List.mem_filter.1 he).1

theorem recover_names {log after : IndexedLog} {commit : Int} {r : Except LogError Recovered}
    (hs : log.storage.Sound) (hsnap : log.sampling.snapshotPath = none)
    (h : (recover commit).run log = (r, after)) :
    ∀ e ∈ after.index.entries, e ∈ log.index.entries ∨ e.Names log.storage.stored := by
  have hnames := recover_loaded_names hs h
  rwa [loadSnapshot_of_none hsnap] at hnames

/-! ## Recovery against reading frame after frame -/

/-- `kept` is what reading `bytes` frame after frame from the first address accepts, and `found` tells
its end. -/
structure LongestRun (bytes kept : Bytes) (found : Recovered) : Prop where
  cut : kept <+: bytes
  frames : kept = Frame.framesOf (Frame.walk bytes Storage.firstAddress).1
  contiguous : Frame.Contiguous (Frame.walk bytes Storage.firstAddress).1
  last : found.lastPosition
    = (Frame.walk bytes Storage.firstAddress).1.getLast?.map Record.position
  next : found.nextPosition
    = ((Frame.walk bytes Storage.firstAddress).1.getLast?.map Record.nextPosition).getD 0
  truncated : found.truncatedTail = true ↔ kept ≠ bytes
  torn : kept ≠ bytes → Frame.Torn bytes kept.length

/-- Nothing can be read behind the run that a recovery keeps. -/
theorem RecoversTo.walk {log after : IndexedLog} {commit : Int} {found : Recovered} {start : Int}
    {payloads : List Bytes} (h : log.RecoversTo after commit found start payloads) :
    (Frame.walk log.storage.stored Storage.firstAddress).1 = Frame.recordsOf start 0 payloads := by
  obtain ⟨rest, hrest⟩ := h.bytes
  have hw := Frame.walk_encodeRun h.readable rest Storage.firstAddress
  have hdrop : log.storage.stored.drop (Frame.encodeRun start payloads).length = rest := by
    rw [← hrest, List.drop_left]
  have hstop : (Frame.walk rest
      (Storage.firstAddress + (Frame.encodeRun start payloads).length)).1 = [] := by
    rw [Storage.firstAddress, Nat.zero_add]
    rcases h.cut with ⟨-, hsame⟩ | ⟨-, -, -, damage, hd⟩
    · rw [← hsame, h.stored, List.drop_length] at hdrop
      rw [← hdrop, Frame.walk_nil]
    · rw [h.stored, hdrop] at hd
      rw [Frame.walk_eq_nil hd]
  rw [← hrest, hw, hstop, List.append_nil]
  rfl

theorem recover_keeps_longest_run (log : IndexedLog) (commit : Int) (hs : log.storage.Sound)
    (hindex : log.index.isEmpty = true) (hsnap : log.sampling.snapshotPath = none) :
    match (recover commit).run log with
    | (.error _, after) => after.storage.stored = log.storage.stored
    | (.ok found, after) => LongestRun log.storage.stored after.storage.stored found := by
  have hentries : log.index.entries = [] := by simpa [BlockIndex.isEmpty] using hindex
  have hd : log.index.Describes log.storage.stored :=
    ⟨fun e he => by rw [hentries] at he; simp at he, by rw [hentries]; exact .nil⟩
  have hspec := recover_spec hs hsnap hd (Prod.eta ((recover commit).run log)).symm
  split
  · next e after hrun =>
    rw [hrun] at hspec
    exact hspec.keeps.2
  · next found after hrun =>
    rw [hrun] at hspec
    obtain ⟨start, payloads, hto⟩ := hspec
    have hwalk := hto.walk
    refine ⟨hto.stored ▸ hto.bytes, ?_, ?_, ?_, ?_, ?_, ?_⟩
    · rw [hwalk, Frame.framesOf_recordsOf, hto.stored]
    · rw [hwalk]
      exact Frame.contiguous_recordsOf ..
    · rw [hwalk, hto.last]
    · rw [hwalk, hto.next]
    · rcases hto.cut with ⟨hno, hsame⟩ | ⟨hyes, -, -, damage, hbad⟩
      · simp [hno, hsame]
      · refine ⟨fun _ hsame => ?_, fun _ => hyes⟩
        rw [hsame, List.drop_length] at hbad
        simp at hbad
    · intro hne
      rcases hto.cut with ⟨-, hsame⟩ | ⟨-, -, htorn, -⟩
      · exact absurd hsame hne
      · exact htorn

/-- A record, and two bytes of the header of another one. -/
def tornLog : IndexedLog where
  storage := { medium := .memory true (Frame.encode 0 [1, 2, 3] ++ [4, 0]) 0 }
  sampling := { threshold := 1, windowSize := 16 }

theorem recover_tornLog :
    tornLog.storage.Sound ∧ tornLog.index.isEmpty = true ∧ tornLog.sampling.snapshotPath = none ∧
      ∃ found after, (recover (-1)).run tornLog = (.ok found, after) ∧ found.nextPosition = 3 ∧
        after.storage.stored = Frame.encode 0 [1, 2, 3] ∧
        LongestRun tornLog.storage.stored after.storage.stored found := by
  have hok : (((recover (-1)).run tornLog).1.toOption.map (·.nextPosition)) = some 3 := by
    decide +kernel
  have hkept : ((recover (-1)).run tornLog).2.storage.stored = Frame.encode 0 [1, 2, 3] := by
    decide +kernel
  have h := recover_keeps_longest_run tornLog (-1) trivial rfl rfl
  refine ⟨trivial, rfl, rfl, ?_⟩
  generalize (recover (-1)).run tornLog = result at hok hkept h
  obtain ⟨outcome, after⟩ := result
  cases outcome with
  | error e => simp [Except.toOption] at hok
  | ok found => exact ⟨found, after, rfl, by simpa [Except.toOption] using hok, hkept, h⟩

end IndexedLog

end PartitionLog
