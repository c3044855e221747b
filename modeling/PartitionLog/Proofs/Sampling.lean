import PartitionLog.Proofs.Seeking
import PartitionLog.Proofs.Course

/-!
# The entries that a scan makes

Which records get an entry depends on nothing but the records, the index and the bytes since its last
entry: a scan that ends well has sampled the records of its walk one after the other (`run_samples`).
Sampling can be taken up again at its last entry and comes to the same (`resume`), and so can that of a
recovery (`recover_samples`, `Scans.resumes`).
-/

namespace PartitionLog

namespace BlockIndex

variable {ix : BlockIndex}

theorem last?_eq_none_iff : ix.last? = none ↔ ix.entries = [] := by simp [last?]

/-- Where all entries lie before an address, none is dropped there. -/
theorem truncateFrom_eq_self {address : Nat} (h : ix.Below address) :
    ix.truncateFrom address = ix :=
  eq_of_entries (List.filter_eq_self.2 fun e he => decide_eq_true (h e he))

end BlockIndex

namespace Scan

/-- Index some records, one after the other. -/
def sampleAll (threshold : Nat) : List Record → BlockIndex → Option Nat →
    Except LogError (BlockIndex × Option Nat)
  | [], index, since => .ok (index, since)
  | r :: rest, index, since =>
    match sample threshold index since r with
    | .error e => .error e
    | .ok (index, since) => sampleAll threshold rest index since

variable {threshold : Nat} {r : Record} {rest : List Record} {index after : BlockIndex}
  {since sinceAfter : Option Nat}

theorem sampleAll_cons (h : sample threshold index since r = .ok (after, sinceAfter)) :
    sampleAll threshold (r :: rest) index since = sampleAll threshold rest after sinceAfter := by
  rw [sampleAll, h]

theorem sampleAll_cons_ok (h : sampleAll threshold (r :: rest) index since = .ok (after, sinceAfter)) :
    ∃ middle sinceMiddle, sample threshold index since r = .ok (middle, sinceMiddle) ∧
      sampleAll threshold rest middle sinceMiddle = .ok (after, sinceAfter) := by
  rw [sampleAll] at h
  split at h
  · simp at h
  · next middle sinceMiddle hs => exact ⟨middle, sinceMiddle, hs, h⟩

/-- A scan that ends well has sampled the records from its start on. -/
theorem run_samples (threshold address : Nat) (scan : Scan) {after : Scan} {log : Bytes}
    {stop : Option (Nat × Damage)} (h : scan.reading.Sees log)
    (hr : run threshold address scan = (.ok stop, after)) :
    sampleAll threshold (Frame.walk (log.drop address) address).1 scan.index scan.sinceEntry
      = .ok (after.index, after.sinceEntry) := by
  fun_induction run threshold address scan with
  | case1 address scan bad damage reading hread =>
    simp only [Prod.mk.injEq] at hr
    obtain ⟨-, rfl⟩ := hr
    obtain ⟨rfl, hd⟩ := (Reading.readAt_spec h hread).2.corruption
    rw [Frame.walk_eq_nil hd]
    rfl
  | case3 address scan reading hread =>
    simp only [Prod.mk.injEq] at hr
    obtain ⟨-, rfl⟩ := hr
    rw [(Reading.readAt_spec h hread).2.none, Frame.walk_nil]
    rfl
  | case6 address scan r reading hread _ index since hs ih =>
    obtain ⟨hsees, hreads⟩ := Reading.readAt_spec h hread
    rw [Frame.walk_of_decode hreads.some, sampleAll_cons hs]
    exact ih hsees hr
  | _ => simp at hr

/-- Where a record got an entry, sampling can begin again. -/
theorem sample_own (h : sample threshold index since r = .ok (after, sinceAfter))
    (hnew : after ≠ index) :
    after.last? = some ⟨r.position, r.address⟩ ∧
      sample threshold after none r = .ok (after, sinceAfter) := by
  obtain ⟨-, hsame, -⟩ | ⟨-, ⟨-, happ, rfl⟩ | ⟨-, hsame, -⟩⟩ := sample_cases h
  · exact absurd hsame hnew
  · have hlast := BlockIndex.last?_of_append happ
    exact ⟨hlast, by rw [sample, hlast, Option.map_some, if_pos rfl]⟩
  · exact absurd hsame hnew

/-- From its last entry on, sampling comes to the same again. -/
theorem resume {records : List Record}
    (h : sampleAll threshold records index since = .ok (after, sinceAfter)) :
    after = index ∨ ∃ front r back, records = front ++ r :: back ∧
      after.last? = some ⟨r.position, r.address⟩ ∧
      sampleAll threshold (r :: back) after none = .ok (after, sinceAfter) := by
  induction records generalizing index since with
  | nil =>
    simp only [sampleAll, Except.ok.injEq, Prod.mk.injEq] at h
    exact .inl h.1.symm
  | cons r rest ih =>
    obtain ⟨middle, sinceMiddle, hs, hrest⟩ := sampleAll_cons_ok h
    obtain rfl | ⟨front, s, back, rfl, hlast, hagain⟩ := ih hrest
    · by_cases hnew : after = index
      · exact .inl hnew
      · obtain ⟨hlast, hown⟩ := sample_own hs hnew
        exact .inr ⟨[], r, rest, rfl, hlast, by rw [sampleAll_cons hown]; exact hrest⟩
    · exact .inr ⟨r :: front, s, back, rfl, hlast, hagain⟩

theorem sample_grows (h : sample threshold index since r = .ok (after, sinceAfter)) :
    index.entries <+: after.entries := by
  rcases sample_ok h with rfl | happ
  · exact List.prefix_rfl
  · rw [(BlockIndex.entries_append happ).1]
    exact List.prefix_append ..

theorem sampleAll_grows {records : List Record}
    (h : sampleAll threshold records index since = .ok (after, sinceAfter)) :
    index.entries <+: after.entries := by
  induction records generalizing index since with
  | nil =>
    simp only [sampleAll, Except.ok.injEq, Prod.mk.injEq] at h
    exact h.1 ▸ List.prefix_rfl
  | cons r rest ih =>
    obtain ⟨middle, sinceMiddle, hs, hrest⟩ := sampleAll_cons_ok h
    exact (sample_grows hs).trans (ih hrest)

/-- Where every byte is one too many without an entry, the next block gets one as well. -/
theorem sampleAll_due {records : List Record} (hdue : needsEntry 1 since = true)
    (h : sampleAll 1 records index since = .ok (after, sinceAfter)) :
    needsEntry 1 sinceAfter = true := by
  induction records generalizing index since with
  | nil =>
    simp only [sampleAll, Except.ok.injEq, Prod.mk.injEq] at h
    exact h.2 ▸ hdue
  | cons r rest ih =>
    obtain ⟨middle, sinceMiddle, hs, hrest⟩ := sampleAll_cons_ok h
    have hlength : needsEntry 1 (some r.frameLength) = true := by
      refine decide_eq_true ?_
      unfold Record.frameLength Frame.lengthFor Frame.headerLength
      omega
    obtain ⟨-, -, rfl⟩ | ⟨-, ⟨-, -, rfl⟩ | ⟨hnot, -⟩⟩ := sample_cases hs
    · exact ih hlength hrest
    · exact ih hlength hrest
    · rw [hdue] at hnot
      simp at hnot

/-- Where a scan begins, the first record has an entry or gets one. -/
theorem sampleAll_first (h : sampleAll threshold (r :: rest) index none = .ok (after, sinceAfter)) :
    after.entries ≠ [] := by
  obtain ⟨middle, sinceMiddle, hs, hrest⟩ := sampleAll_cons_ok h
  have hmiddle : middle.entries ≠ [] := by
    rw [Ne, ← BlockIndex.last?_eq_none_iff]
    intro hnone
    obtain ⟨hlast, rfl, -⟩ | ⟨-, ⟨-, happ, -⟩ | ⟨hnot, -⟩⟩ := sample_cases hs
    · rw [hnone, Option.map_none] at hlast
      simp at hlast
    · rw [BlockIndex.last?_of_append happ] at hnone
      simp at hnone
    · simp [needsEntry] at hnot
  exact fun hnil => hmiddle (List.prefix_nil.1 (hnil ▸ sampleAll_grows hrest))

/-- The records that a scan ended behind are those of its walk. -/
theorem Ended.walk {scan : Scan} {log : Bytes} {start : Int} {before scanned : List Bytes}
    {stop : Option (Nat × Damage)} (h : scan.Ended log start (before ++ scanned) stop) :
    (Frame.walk (log.drop (Frame.encodeRun start before).length)
        (Frame.encodeRun start before).length).1
      = Frame.recordsOf (start + Frame.span before) (Frame.encodeRun start before).length scanned := by
  obtain ⟨more, hmore⟩ := h.bytes
  have hscanned := (Frame.readable_append.1 h.readable).2
  have hlength : (Frame.encodeRun start before).length
      + (Frame.encodeRun (start + Frame.span before) scanned).length
      = (Frame.encodeRun start (before ++ scanned)).length := by
    rw [Frame.encodeRun_append, List.length_append]
  have hend : (Frame.walk more (Frame.encodeRun start (before ++ scanned)).length).1 = [] := by
    have hstop := h.stopped
    have hdrop : log.drop (Frame.encodeRun start (before ++ scanned)).length = more := by
      rw [← hmore, List.drop_left]
    cases stop with
    | none =>
      dsimp only at hstop
      rw [← hdrop, hstop, List.drop_length, Frame.walk_nil]
    | some place =>
      obtain ⟨bad, damage⟩ := place
      obtain ⟨rfl, hd⟩ := hstop
      rw [hdrop] at hd
      rw [Frame.walk_eq_nil hd]
  rw [← hmore, Frame.drop_run, Frame.walk_encodeRun hscanned, hlength, hend, List.append_nil]

theorem scanned_foldl_add (records : List Record) (found : Recovered) :
    (records.foldl Recovered.add found).scanned = found.scanned + records.length := by
  induction records generalizing found with
  | nil => rfl
  | cons r rest ih =>
    rw [List.foldl_cons, ih, List.length_cons]
    simp only [Recovered.add]
    omega

/-- A scan that begins at the last entry has the record of this entry ahead. -/
theorem At.place {reading : Reading} {log : Bytes} {start : Int} {before : List Bytes}
    {last : IndexEntry}
    (h : At { reading := reading, index := index } log (index.lastStart Storage.firstAddress) start
      before)
    (hnames : last.Names log) (hl : index.last? = some last) :
    last = ⟨start + Frame.span before, (Frame.encodeRun start before).length⟩ ∧
      ∃ r, Frame.decode (log.drop (Frame.encodeRun start before).length)
        (Frame.encodeRun start before).length = .ok (some r) := by
  obtain ⟨r, hr, hposition⟩ := hnames
  have hstart : index.lastStart Storage.firstAddress = last.address := by
    rw [BlockIndex.lastStart, hl]
    rfl
  have hlength := h.length
  rw [hstart] at hlength h
  have hnext := h.next r hr (Awaits.not_breaks (.inl rfl))
  exact ⟨by rw [hlength, ← hnext, hposition], r, by rw [hlength]; exact hr⟩

end Scan

namespace IndexedLog

open Scan

/-- The records that are stored, as far as they can be read. -/
def records (log : IndexedLog) : List Record :=
  (Frame.walk log.storage.stored Storage.firstAddress).1

theorem records_of_stored {log : IndexedLog} {start : Int} {payloads : List Bytes}
    (h : log.storage.stored = Frame.encodeRun start payloads) (hr : Frame.Readable start payloads) :
    log.records = Frame.recordsOf start 0 payloads := by
  have hrun : log.storage.stored.drop 0 = Frame.encodeRun start payloads := h
  exact congrArg Prod.fst (Frame.walk_of_run hrun hr)

/-- What a recovery that ended well scanned, beginning with `index`: the payloads behind `before`, one
record after the other. -/
structure Scans (log after : IndexedLog) (found : Recovered) (index : BlockIndex) (start : Int)
    (before scanned : List Bytes) : Prop where
  begins : index = log.loadSnapshot.index.truncateFrom log.storage.stored.length ∨ index = .empty
  /-- The scan begins at the last entry. -/
  last : ∀ last, index.last? = some last → scanned ≠ [] ∧
    last = ⟨start + Frame.span before, (Frame.encodeRun start before).length⟩
  first : index.last? = none → before = []
  readable : Frame.Readable start (before ++ scanned)
  stored : after.storage.stored = Frame.encodeRun start (before ++ scanned)
  count : found.scanned = scanned.length
  samples : sampleAll log.sampling.threshold (Frame.recordsOf (start + Frame.span before)
      (Frame.encodeRun start before).length scanned) index none
    = .ok (after.index, after.sampling.sinceEntry)
  sampling : after.sampling
    = { log.sampling with isOpen := true, sinceEntry := after.sampling.sinceEntry }

variable {log after : IndexedLog} {commit : Int} {found : Recovered}

/-- The scan of a recovery begins at the last entry that was left, or at the beginning. -/
theorem recover_samples (hs : log.storage.Sound)
    (hd : (log.loadSnapshot.index.truncateFrom log.storage.stored.length).Describes
      log.storage.stored)
    (h : (recover commit).run log = (.ok found, after)) :
    ∃ index start before scanned, log.Scans after found index start before scanned := by
  obtain ⟨e, storage, -, hbad, -, -⟩ | ⟨storage, index, reading, -, hsees, hv, htail⟩ :=
    recover_cases hs h
  · simp at hbad
  obtain ⟨start, before, hat, -⟩ := verifyLast_at hsees hd (BlockIndex.below_truncateFrom _ _) hv
  obtain ⟨-, hcases⟩ := verifyLast_cases hsees hv
  have hnames : ∀ last, index.last? = some last → last.Names log.storage.stored := by
    obtain ⟨rfl, hnames⟩ | rfl := hcases
    · exact hnames
    · simp [BlockIndex.clear, BlockIndex.empty, BlockIndex.last?]
  generalize hrun : Scan.run log.sampling.threshold (index.lastStart Storage.firstAddress)
    { reading := reading, index := index } = result
  obtain ⟨outcome, scan⟩ := result
  obtain ⟨hseen, -, hok⟩ := Scan.run_spec _ _ _ hat hrun
  -- all of it but for how the storage, the index and the findings were left
  have hscans : ∀ stop, outcome = .ok stop → ∃ scanned,
      scan.Ended log.storage.stored start (before ++ scanned) stop ∧
      (after.storage.stored = Frame.encodeRun start (before ++ scanned) → after.index = scan.index →
        after.sampling = { log.sampling with isOpen := true, sinceEntry := scan.sinceEntry } →
        found.scanned = scan.recovered.scanned →
        log.Scans after found index start before scanned) := by
    rintro stop rfl
    obtain ⟨scanned, hended, hfold⟩ := hok stop rfl
    have hwalk := hended.walk
    have hsamples := run_samples _ _ _ hat.sees hrun
    rw [← hat.length, hwalk] at hsamples
    refine ⟨scanned, hended, fun hstored hindex hsampling hcount => ?_⟩
    exact {
      begins := hcases.imp And.left id
      last := fun last hl => by
        obtain ⟨hplace, r, hr⟩ := hat.place (hnames last hl) hl
        refine ⟨fun hnil => ?_, hplace⟩
        rw [Frame.walk_of_decode hr, hnil] at hwalk
        simp [Frame.recordsOf] at hwalk
      first := fun hnone => by
        have hlength := hat.length
        rw [BlockIndex.lastStart, hnone] at hlength
        exact Frame.encodeRun_eq_nil.1 (List.eq_nil_of_length_eq_zero hlength)
      readable := hended.readable
      stored := hstored
      count := by
        rw [hcount, hfold, scanned_foldl_add, Nat.zero_add, ← List.length_map Record.payload,
          Frame.map_payload_recordsOf]
      samples := by rw [hindex, hsampling]; exact hsamples
      sampling := by rw [hsampling] }
  obtain ⟨e, -, hbad, -⟩ | ⟨rfl, hfound, rfl⟩ |
      ⟨bad, damage, rfl, ⟨e, t, -, hbad, -⟩ | ⟨t, hcut, hfound, rfl⟩⟩ := recoverTail_cases hrun htail
  · simp at hbad
  · obtain ⟨scanned, hended, hscan⟩ := hscans none rfl
    have hall : Frame.encodeRun start (before ++ scanned) = log.storage.stored := hended.stopped
    simp only [Except.ok.injEq] at hfound
    exact ⟨index, start, before, scanned,
      hscan (hseen.stored.trans hall.symm) rfl rfl (by rw [hfound])⟩
  · simp at hbad
  · obtain ⟨scanned, hended, hscan⟩ := hscans _ rfl
    obtain ⟨hbad, -⟩ := hended.stopped
    rw [← hseen.stored] at hcut
    obtain ⟨-, hstored, -⟩ := cutTail_ok hseen.sound hcut
    rw [hseen.stored] at hstored
    -- every entry lies before the damage
    have hindex : scan.index.truncateFrom bad = scan.index :=
      BlockIndex.truncateFrom_eq_self (hbad ▸ hended.below)
    simp only [Except.ok.injEq] at hfound
    refine ⟨index, start, before, scanned, hscan ?_ hindex rfl (by rw [hfound])⟩
    rw [hstored, hbad]
    exact (List.prefix_iff_eq_take.1 hended.bytes).symm

section

variable {index : BlockIndex} {start : Int} {before scanned : List Bytes}

theorem Scans.lastStart (h : log.Scans after found index start before scanned) :
    index.lastStart Storage.firstAddress = (Frame.encodeRun start before).length := by
  unfold BlockIndex.lastStart
  cases hl : index.last? with
  | none =>
    rw [h.first hl]
    rfl
  | some last =>
    rw [(h.last last hl).2]
    rfl

/-- Without entries there is nothing in the log. -/
theorem Scans.stored_eq_nil (h : log.Scans after found index start before scanned)
    (hnil : after.index.entries = []) : after.storage.stored = [] := by
  have hindex : index.entries = [] := List.prefix_nil.1 (hnil ▸ sampleAll_grows h.samples)
  have hscanned : scanned = [] := by
    cases scanned with
    | nil => rfl
    | cons x rest => exact absurd hnil (sampleAll_first h.samples)
  rw [h.stored, h.first (BlockIndex.last?_eq_none_iff.2 hindex), hscanned]
  rfl

/-- Sampling again from the last entry of what a recovery left leaves the index and the bytes since
then as they are. -/
theorem Scans.resumes (h : log.Scans after found index start before scanned) :
    sampleAll log.sampling.threshold
        (Frame.walk (after.storage.stored.drop (after.index.lastStart Storage.firstAddress))
          (after.index.lastStart Storage.firstAddress)).1 after.index none
      = .ok (after.index, after.sampling.sinceEntry) := by
  have hwalk : Frame.walk (after.storage.stored.drop (Frame.encodeRun start before).length)
      (Frame.encodeRun start before).length
      = (Frame.recordsOf (start + Frame.span before) (Frame.encodeRun start before).length scanned,
        none) := by
    refine Frame.walk_of_run ?_ (Frame.readable_append.1 h.readable).2
    rw [h.stored, Frame.encodeRun_append, List.drop_left]
  have hsamples := h.samples
  obtain hsame | ⟨front, r, back, hsplit, hlast, hagain⟩ := resume hsamples
  · rw [hsame, h.lastStart, hwalk, ← hsame]
    rwa [← hsame] at hsamples
  · rw [hsplit] at hwalk
    have hstart : after.index.lastStart Storage.firstAddress = r.address := by
      rw [BlockIndex.lastStart, hlast]
      rfl
    rw [hstart, Frame.walk_behind hwalk]
    exact hagain

end

end IndexedLog

end PartitionLog
