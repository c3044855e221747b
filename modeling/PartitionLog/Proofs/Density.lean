import PartitionLog.Proofs.Pacing

/-!
# How dense an index is

A log is `Tended` if it starts with a recovery of all that is stored and is then written, cut and
recovered again. Its entries lie at least the threshold apart, or else the log was cut between adding
the one and the other; and every record that begins a block or was scanned has an entry of its own or
lies less than the threshold behind one (`index_dense`). What every step keeps is `Dense`. Not so for
empty records: the next record has the same position, so a recovery begins to count anew there, and a
cut there forgets the entry of the empty one (`not_dense_behind_empty`).
-/

namespace PartitionLog

namespace IndexedLog

/-- The entry of an empty record. -/
def Hollow (log : IndexedLog) (e : IndexEntry) : Prop :=
  ∃ r ∈ log.records, r.address = e.address ∧ r.payload = []

/-- The records that a recovery scanned are the last ones. -/
def scannedBy (log : IndexedLog) (found : Recovered) : List Record :=
  log.records.drop (log.records.length - found.scanned)

end IndexedLog

/-- A log with its index and what was seen of it. -/
structure Tracked where
  log : IndexedLog
  /-- The first records of noted blocks and the records that were scanned, if they are still stored. -/
  starts : List Record := []
  /-- How often the log was cut. -/
  cuts : Nat := 0
  /-- How often the log had been cut when an entry was added. An entry that a recovery drops and finds
  again keeps this. -/
  added : IndexEntry → Nat := fun _ => 0

namespace Tracked

/-- The log goes on as `log`, where some more records were seen. -/
def follow (t : Tracked) (log : IndexedLog) (seen : List Record) : Tracked where
  log := log
  starts := t.starts ++ seen
  cuts := t.cuts
  added e := if e ∈ t.log.index.entries then t.added e else t.cuts

@[simp] theorem follow_log (t : Tracked) (log : IndexedLog) (seen : List Record) :
    (t.follow log seen).log = log := rfl

/-- The log was cut at `address`, and goes on as `log`. -/
def cut (t : Tracked) (log : IndexedLog) (address : Nat) : Tracked :=
  { t with
    log := log
    starts := t.starts.filter (·.address < address)
    cuts := t.cuts + 1 }

/-- The entries keep the threshold, or the log was cut between adding the one and the other. -/
def Apart (t : Tracked) (e f : IndexEntry) : Prop :=
  Sampling.Gap t.log.sampling.threshold e f ∨ t.added e < t.added f

open IndexedLog in
/-- How a log is tended that is opened without an index and without a snapshot: blocks are put behind
its last record and noted, it is cut at one of its records, recovered again and closed. Other calls
that keep what is stored may come between. -/
inductive Tended : Tracked → Prop
  | opened {log after : IndexedLog} {commit : Int} {found : Recovered} (sound : log.storage.Sound)
    (unindexed : log.index = .empty) (unsaved : log.loadSnapshot = log)
    (recovers : (recover commit).run log = (.ok found, after)) :
    Tended (follow { log } after (after.scannedBy found))
  | written {t : Tracked} {position : Int} {first : Bytes} {rest : List Bytes} {address : Nat}
    {storage : Storage} {answer : Except LogError Unit} {after : IndexedLog} (tended : t.Tended)
    (readable : Frame.Readable position (first :: rest))
    (follows : ∀ last, t.log.records.getLast? = some last → position = last.nextPosition)
    (append : (Storage.append (Frame.encodeRun position (first :: rest))).run t.log.storage
      = (.ok address, storage))
    (note : (noteBlock position address (Frame.encodeRun position (first :: rest)).length).run
      { t.log with storage } = (answer, after)) :
    Tended (t.follow after [⟨position, address, first⟩])
  | truncated {t : Tracked} {r : Record} {storage : Storage} (tended : t.Tended)
    (stored : r ∈ t.log.records)
    (truncate : (Storage.truncate r.address).run t.log.storage = (.ok (), storage)) :
    Tended (t.cut (forget r.position r.address { t.log with storage }) r.address)
  | reopened {t : Tracked} {commit : Int} {found : Recovered} {after : IndexedLog} (tended : t.Tended)
    (unsaved : t.log.loadSnapshot = t.log) (recovers : (recover commit).run t.log = (.ok found, after)) :
    Tended (t.follow after (after.scannedBy found))
  | closed {t : Tracked} {answer : Except LogError Unit} {after : IndexedLog} (tended : t.Tended)
    (closes : persist.run t.log = (answer, after)) (keeps : t.log.storage.Keeps after.storage) :
    Tended { t with log := after }
  | called {t : Tracked} {storage : Storage} (tended : t.Tended) (keeps : t.log.storage.Keeps storage) :
    Tended { t with log := { t.log with storage } }

end Tracked

namespace IndexedLog

open Sampling

variable {t : Tracked} {log after : IndexedLog} {commit : Int} {found : Recovered} {start : Int}
  {payloads : List Bytes}

/-! ## Scanning -/

theorem hollow_of_record {r : Record} (h : r ∈ log.records) (hempty : r.payload = []) :
    log.Hollow ⟨r.position, r.address⟩ := ⟨r, h, rfl, hempty⟩

/-- What a recovery that ended well has scanned, it sampled at a pace. -/
theorem Scans.sweeps {index : BlockIndex} {before scanned : List Bytes}
    (h : log.Scans after found index start before scanned)
    (hrising : index.entries.Pairwise (·.address < ·.address)) :
    ∃ records, after.records = Frame.recordsOf start 0 before ++ records ∧
      after.scannedBy found = records ∧
      (∀ r ∈ records, (Frame.encodeRun start before).length ≤ r.address) ∧
      Scan.Swept log.sampling.threshold after.Hollow index after.index records ∧
      Scan.Pace after.Hollow after.index after.sampling.sinceEntry after.storage.stored.length
        (start + Frame.span (before ++ scanned)) := by
  have hrecords : after.records = Frame.recordsOf start 0 before
      ++ Frame.recordsOf (start + Frame.span before) (Frame.encodeRun start before).length scanned := by
    rw [records_of_stored h.stored h.readable, Frame.recordsOf_append, Nat.zero_add]
  have hbegins : Scan.Pace after.Hollow index none (Frame.encodeRun start before).length
      (start + Frame.span before) := by
    cases hl : index.last? with
    | none => exact .unindexed hl
    | some last => exact .own (by rw [hl, (h.last last hl).2])
  obtain ⟨hswept, hpace⟩ := hbegins.sampleAll hrising
    (fun r hr => hollow_of_record (hrecords ▸ List.mem_append_right _ hr)) h.samples
  refine ⟨_, hrecords, ?_, fun r => Frame.address_le_of_mem, hswept, ?_⟩
  · have hcount : found.scanned = (Frame.recordsOf (start + Frame.span before)
        (Frame.encodeRun start before).length scanned).length := by
      rw [h.count, ← List.length_map Record.payload, Frame.map_payload_recordsOf]
    rw [scannedBy, hrecords, hcount, List.length_append, Nat.add_sub_cancel, List.drop_left]
  · rw [h.stored, Frame.encodeRun_append, List.length_append, Frame.span_append, Int.natCast_add,
      ← Int.add_assoc]
    exact hpace

/-! ## The invariant -/

/-- What holds of a log that is kept, also before it is recovered for the first time. -/
structure Upkept (t : Tracked) : Prop where
  sound : t.log.storage.Sound
  describes : t.log.index.Describes t.log.storage.stored
  below : t.log.index.Below t.log.storage.stored.length
  picks : t.log.index.PicksFrom t.log.records
  starts : ∀ r ∈ t.starts, r ∈ t.log.records
  covers : ∀ r ∈ t.starts, r.payload ≠ [] →
    t.log.index.Covers t.log.sampling.threshold t.log.Hollow r.address
  chain : t.log.index.entries.IsChain t.Apart
  past : ∀ e ∈ t.log.index.entries, t.added e ≤ t.cuts

/-- The log is a run of frames, and behind it a block can be noted. -/
structure Dense (t : Tracked) (start : Int) (payloads : List Bytes) : Prop extends Upkept t where
  readable : Frame.Readable start payloads
  stored : t.log.storage.stored = Frame.encodeRun start payloads
  ready : Ready (t.added · < t.cuts) t.log.Hollow t.log.index t.log.sampling.sinceEntry
    t.log.storage.stored.length (start + Frame.span payloads)

theorem Dense.records (h : Dense t start payloads) :
    t.log.records = Frame.recordsOf start 0 payloads :=
  records_of_stored h.stored h.readable

/-- Where entries pick from the records of a run, they describe it and lie inside it. -/
theorem describes_of_picks (hr : Frame.Readable start payloads)
    (hstored : log.storage.stored = Frame.encodeRun start payloads)
    (hpicks : log.index.PicksFrom log.records) :
    log.index.Describes log.storage.stored ∧ log.index.Below log.storage.stored.length := by
  rw [records_of_stored hstored hr] at hpicks
  rw [hstored]
  exact ⟨hpicks.describes hr, hpicks.below⟩

theorem upkept_unindexed (hs : log.storage.Sound) (hindex : log.index = .empty) : Upkept { log } := by
  have hnil : log.index.entries = [] := by rw [hindex]; rfl
  exact {
    sound := hs
    describes := ⟨by simp [hnil], by simp [hnil]⟩
    below := by simp [BlockIndex.Below, hnil]
    picks := by simp [BlockIndex.PicksFrom, hnil]
    starts := by simp
    covers := by simp
    chain := by simp [hnil]
    past := by simp [hnil] }

/-! ### Recovering -/

theorem Upkept.follow_past (h : Upkept t) (seen : List Record) (e : IndexEntry) :
    (t.follow after seen).added e ≤ (t.follow after seen).cuts := by
  dsimp only [Tracked.follow]
  split
  · next hmem => exact h.past e hmem
  · exact Nat.le_refl _

/-- Entries that are there already keep their distance. -/
theorem Upkept.follow_chain (h : Upkept t) (seen : List Record)
    (hthreshold : after.sampling.threshold = t.log.sampling.threshold) :
    t.log.index.entries.IsChain (t.follow after seen).Apart := by
  refine h.chain.imp_of_mem_imp fun e f he hf hapart => ?_
  simpa only [Tracked.Apart, Tracked.follow, if_pos he, if_pos hf, hthreshold] using hapart

/-- A recovery has scanned the last `records`, beginning with the index that was there, or from the
first record on without one. -/
structure Rescanned (t : Tracked) (after : IndexedLog) (found : Recovered) (index : BlockIndex)
    (start : Int) (before : List Bytes) (records : List Record) : Prop where
  begins : index = t.log.index ∨ index = .empty ∧ before = []
  same : after.records = t.log.records
  split : after.records = Frame.recordsOf start 0 before ++ records
  seen : after.scannedBy found = records
  behind : ∀ r ∈ records, (Frame.encodeRun start before).length ≤ r.address
  threshold : after.sampling.threshold = t.log.sampling.threshold
  swept : Scan.Swept t.log.sampling.threshold after.Hollow index after.index records

section Rescanned

variable {index : BlockIndex} {before : List Bytes} {records : List Record}

theorem Rescanned.mem (h : Rescanned t after found index start before records) {r : Record}
    (hr : r ∈ records) : r ∈ after.records := h.split ▸ List.mem_append_right _ hr

theorem Rescanned.picks (h : Rescanned t after found index start before records)
    (hpicks : t.log.index.PicksFrom t.log.records) : after.index.PicksFrom after.records := by
  obtain ⟨more, hmore, hplaces⟩ := h.swept.grown
  intro e he
  rw [hmore] at he
  rcases List.mem_append.1 he with he | he
  · obtain rfl | ⟨rfl, -⟩ := h.begins
    · exact h.same ▸ hpicks e he
    · simp [BlockIndex.empty] at he
  · obtain ⟨r, hr, hplace⟩ := hplaces e he
    exact ⟨r, h.mem hr, hplace⟩

/-- What lies before the scanned records stays covered, and what was scanned is. -/
theorem Rescanned.covers (h : Rescanned t after found index start before records) {r : Record}
    (hr : r ∈ after.records)
    (hcovers : r ∉ records → t.log.index.Covers t.log.sampling.threshold t.log.Hollow r.address) :
    after.index.Covers after.sampling.threshold after.Hollow r.address := by
  rw [h.threshold]
  by_cases hscanned : r ∈ records
  · exact h.swept.covers r hscanned
  · have hbefore : r ∈ Frame.recordsOf start 0 before :=
      (List.mem_append.1 (h.split ▸ hr)).resolve_right hscanned
    obtain rfl | ⟨-, rfl⟩ := h.begins
    · obtain ⟨more, hmore, hplaces⟩ := h.swept.grown
      refine (hcovers hscanned).grow hmore (fun e he => ?_) fun e ⟨s, hs, hplace⟩ =>
        ⟨s, h.same ▸ hs, hplace⟩
      obtain ⟨s, hs, rfl⟩ := hplaces e he
      have hlt := Frame.address_lt_of_mem hbefore
      have hle := h.behind s hs
      dsimp only
      omega
    · simp [Frame.recordsOf] at hbefore

theorem Rescanned.chain (h : Rescanned t after found index start before records) (hkept : Upkept t)
    (seen : List Record) : after.index.entries.IsChain (t.follow after seen).Apart := by
  refine h.swept.spaced _ (fun e f hgap => .inl (h.threshold ▸ hgap)) ?_
  obtain rfl | ⟨rfl, -⟩ := h.begins
  · exact hkept.follow_chain _ h.threshold
  · exact .nil

end Rescanned

theorem Upkept.recover (h : Upkept t) (hloaded : t.log.loadSnapshot = t.log)
    (hr : (recover commit).run t.log = (.ok found, after)) :
    ∃ start payloads, Dense (t.follow after (after.scannedBy found)) start payloads := by
  obtain ⟨origin, others, hto⟩ := recover_loaded h.sound (by rw [hloaded]; exact h.describes) hr
  obtain ⟨index, start, before, scanned, hscans⟩ := recover_samples h.sound
    (by rw [hloaded]; exact BlockIndex.describes_restrict h.describes _) hr
  have hbegins : index = t.log.index ∨ index = .empty ∧ before = [] := by
    obtain hbegins | rfl := hscans.begins
    · rw [hloaded] at hbegins
      exact .inl (hbegins.trans (BlockIndex.truncateFrom_eq_self h.below))
    · exact .inr ⟨rfl, hscans.first rfl⟩
  have hrising : index.entries.Pairwise (·.address < ·.address) := by
    obtain rfl | ⟨rfl, -⟩ := hbegins
    · exact h.describes.rising
    · exact .nil
  obtain ⟨records, hsplit, hseen, hbehind, hswept, hpace⟩ := hscans.sweeps hrising
  have hrescanned : Rescanned t after found index start before records :=
    ⟨hbegins, (records_of_stored hto.stored hto.readable).trans hto.walk.symm, hsplit, hseen, hbehind,
      by rw [hscans.sampling], hswept⟩
  have hstarts : ∀ r ∈ t.starts ++ after.scannedBy found, r ∈ after.records := fun r hmem =>
    (List.mem_append.1 hmem).elim (fun hold => hrescanned.same ▸ h.starts r hold)
      fun hnew => hrescanned.mem (hseen ▸ hnew)
  exact ⟨start, before ++ scanned, {
    sound := hto.sound
    describes := hto.describes
    below := hto.below
    picks := hrescanned.picks h.picks
    starts := hstarts
    covers := fun r hmem hne => hrescanned.covers (hstarts r hmem) fun hnot =>
      h.covers r ((List.mem_append.1 hmem).resolve_right fun hnew => hnot (hseen ▸ hnew)) hne
    chain := hrescanned.chain h _
    past := fun e _ => h.follow_past _ e
    readable := hscans.readable
    stored := hscans.stored
    ready := hpace.ready hto.below }⟩

/-! ### Writing -/

/-- An empty log can begin at any position. -/
theorem Dense.rebase (h : Dense t start []) (position : Int) : Dense t position [] := by
  have hnil : t.log.storage.stored = [] := h.stored
  have hentries : t.log.index.entries = [] := by
    refine List.eq_nil_iff_forall_not_mem.2 fun e he => ?_
    have := h.below e he
    simp [hnil] at this
  refine { h with readable := trivial, stored := h.stored, ready := ?_ }
  obtain ⟨hnone, -⟩ | ⟨last, _, hl, -⟩ := h.ready
  · exact .inl ⟨hnone, by simp [hentries]⟩
  · simp [BlockIndex.last?, hentries] at hl

/-- The next block begins where the last record ends. -/
theorem Dense.next (h : Dense t start payloads) {position : Int}
    (hfollows : ∀ last, t.log.records.getLast? = some last → position = last.nextPosition) :
    ∃ start, Dense t start payloads ∧ position = start + Frame.span payloads := by
  by_cases hnil : payloads = []
  · subst hnil
    exact ⟨position, h.rebase position, by simp⟩
  · have hnext : (Frame.recordsOf start 0 payloads).getLast?.map Record.nextPosition
        = some (start + Frame.span payloads) := Frame.next_recordsOf hnil
    rw [← h.records] at hnext
    obtain ⟨last, hl, hend⟩ := Option.map_eq_some_iff.1 hnext
    exact ⟨start, h, (hfollows last hl).trans hend⟩

/-- A block was put behind the last record of a log and noted. -/
structure Extended (t : Tracked) (start : Int) (payloads block : List Bytes) (after : IndexedLog) :
    Prop where
  sound : after.storage.Sound
  readable : Frame.Readable start (payloads ++ block)
  stored : after.storage.stored = Frame.encodeRun start (payloads ++ block)
  records : after.records = t.log.records
    ++ Frame.recordsOf (start + Frame.span payloads) t.log.storage.stored.length block
  sampling : after.sampling = { t.log.sampling with sinceEntry := after.sampling.sinceEntry }

theorem Dense.extended (h : Dense t start payloads) {block : List Bytes} {position : Int}
    {storage : Storage} {address number length : Nat} {answer : Except LogError Unit}
    (hr : Frame.Readable (start + Frame.span payloads) block)
    (happend : (Storage.append (Frame.encodeRun (start + Frame.span payloads) block)).run t.log.storage
      = (.ok address, storage))
    (hnote : (noteBlock position number length).run { t.log with storage } = (answer, after)) :
    Extended t start payloads block after := by
  obtain ⟨hsound, -, happended⟩ := Storage.append_ok h.sound happend
  obtain ⟨hstorage, hsampling, -⟩ := noteBlock_leaves hnote
  have hreadable := Frame.readable_append.2 ⟨h.readable, hr⟩
  have hstored : after.storage.stored = Frame.encodeRun start (payloads ++ block) := by
    rw [hstorage, happended, h.stored, Frame.encodeRun_append]
  exact {
    sound := hstorage ▸ hsound
    readable := hreadable
    stored := hstored
    records := by
      rw [records_of_stored hstored hreadable, h.records, h.stored, Frame.recordsOf_append,
        Nat.zero_add]
    sampling := hsampling }

theorem Extended.threshold {block : List Bytes} (h : Extended t start payloads block after) :
    after.sampling.threshold = t.log.sampling.threshold := by rw [h.sampling]

theorem Extended.hollow {block : List Bytes} (h : Extended t start payloads block after)
    (e : IndexEntry) (he : t.log.Hollow e) : after.Hollow e := by
  obtain ⟨r, hmem, hplace⟩ := he
  exact ⟨r, h.records ▸ List.mem_append_left _ hmem, hplace⟩

theorem Extended.mem_first {first : Bytes} {rest : List Bytes}
    (h : Extended t start payloads (first :: rest) after) :
    ⟨start + Frame.span payloads, t.log.storage.stored.length, first⟩ ∈ after.records :=
  h.records ▸ List.mem_append_right _ List.mem_cons_self

/-- The log is ready for the block that is noted. -/
theorem Dense.noted (h : Dense t start payloads) {first : Bytes} {rest : List Bytes}
    {storage : Storage} {answer : Except LogError Unit}
    (hx : Extended t start payloads (first :: rest) after)
    (hnote : (noteBlock (start + Frame.span payloads) t.log.storage.stored.length
      (Frame.encodeRun (start + Frame.span payloads) (first :: rest)).length).run
      { t.log with storage } = (answer, after)) (seen : List Record) :
    Sampled (t.follow after seen).Apart t.log.sampling.threshold after.Hollow t.log.index after.index
      after.sampling.sinceEntry ⟨start + Frame.span payloads, t.log.storage.stored.length⟩
      (t.log.storage.stored.length
        + (Frame.encodeRun (start + Frame.span payloads) (first :: rest)).length)
      (start + Frame.span payloads + Frame.span (first :: rest)) := by
  have hnew : ⟨start + Frame.span payloads, t.log.storage.stored.length⟩ ∉ t.log.index.entries :=
    fun hmem => Nat.lt_irrefl _ (h.below _ hmem)
  have hgap : ∀ e f, Gap t.log.sampling.threshold e f → (t.follow after seen).Apart e f :=
    fun e f hfar => .inl (hx.threshold ▸ hfar)
  have hready : Ready ((t.follow after seen).Apart ·
      ⟨start + Frame.span payloads, t.log.storage.stored.length⟩) after.Hollow t.log.index
      t.log.sampling.sinceEntry t.log.storage.stored.length (start + Frame.span payloads) := by
    refine h.ready.mono (fun e he hbefore => .inr ?_) hx.hollow
    simpa only [Tracked.follow, if_pos he, if_neg hnew] using hbefore
  have hlength : 0 < (Frame.encodeRun (start + Frame.span payloads) (first :: rest)).length :=
    List.length_pos_iff.2 fun hnil => by simp at hnil
  have hempty : Frame.span (first :: rest) = 0 →
      after.Hollow ⟨start + Frame.span payloads, t.log.storage.stored.length⟩ := fun hspan => by
    refine hollow_of_record hx.mem_first (List.eq_nil_of_length_eq_zero ?_)
    rw [Frame.span_cons] at hspan
    dsimp only
    omega
  exact (noteBlock_sampled hnote hgap hready hlength hempty :)

theorem Dense.write (h : Dense t start payloads) {first : Bytes} {rest : List Bytes} {address : Nat}
    {storage : Storage} {answer : Except LogError Unit}
    (hr : Frame.Readable (start + Frame.span payloads) (first :: rest))
    (happend : (Storage.append (Frame.encodeRun (start + Frame.span payloads) (first :: rest))).run
      t.log.storage = (.ok address, storage))
    (hnote : (noteBlock (start + Frame.span payloads) address
      (Frame.encodeRun (start + Frame.span payloads) (first :: rest)).length).run
      { t.log with storage } = (answer, after)) :
    Dense (t.follow after [⟨start + Frame.span payloads, address, first⟩]) start
      (payloads ++ first :: rest) := by
  obtain rfl := (Storage.append_ok h.sound happend).2.1
  have hx := h.extended hr happend hnote
  have hsampled := h.noted hx hnote [⟨start + Frame.span payloads, t.log.storage.stored.length, first⟩]
  obtain ⟨more, hmore, hplaces⟩ := hsampled.more
  have hpicks : after.index.PicksFrom after.records := by
    intro e he
    rw [hmore] at he
    rcases List.mem_append.1 he with he | he
    · obtain ⟨r, hmem, hplace⟩ := h.picks e he
      exact ⟨r, hx.records ▸ List.mem_append_left _ hmem, hplace⟩
    · exact ⟨_, hx.mem_first, hplaces e he⟩
  obtain ⟨hdescribes, hbelow⟩ := describes_of_picks hx.readable hx.stored hpicks
  exact {
    sound := hx.sound
    describes := hdescribes
    below := hbelow
    picks := hpicks
    starts := by
      intro r hmem
      rcases List.mem_append.1 hmem with hold | hown
      · exact hx.records ▸ List.mem_append_left _ (h.starts r hold)
      · obtain rfl := List.mem_singleton.1 hown
        exact hx.mem_first
    covers := by
      intro r hmem hne
      rw [Tracked.follow_log, hx.threshold]
      rcases List.mem_append.1 hmem with hold | hown
      · refine (h.covers r hold hne).grow hmore (fun e he => ?_) hx.hollow
        have hlt := Frame.address_lt_of_mem (h.records ▸ h.starts r hold)
        rw [hplaces e he, h.stored]
        dsimp only
        omega
      · obtain rfl := List.mem_singleton.1 hown
        exact hsampled.covers hdescribes.rising
    chain := hsampled.chain (h.follow_chain _ hx.threshold)
    past := fun e _ => h.follow_past _ e
    readable := hx.readable
    stored := hx.stored
    ready := by
      obtain ⟨last, bytes, hl, hsome, hcounts⟩ := hsampled.counted
      refine .inr ⟨last, bytes, hl, hsome, ?_⟩
      rw [Tracked.follow_log, hx.stored, Frame.encodeRun_append,
        List.length_append, ← h.stored, Frame.span_append, Int.natCast_add, ← Int.add_assoc]
      exact hcounts }

/-! ### Cutting -/

theorem mem_forget {e : IndexEntry} {position : Int} {address : Nat} :
    e ∈ (forget position address log).index.entries
      ↔ e ∈ log.index.entries ∧ e.position < position ∧ e.address < address := by
  simp only [forget, BlockIndex.truncateFrom, BlockIndex.truncateAfter, BlockIndex.entries_restrict,
    List.mem_filter, decide_eq_true_eq, Int.le_sub_one_iff, and_assoc]

/-- The first entries are left. -/
theorem forget_isPrefix (hrising : log.index.entries.Pairwise (·.address < ·.address)) (position : Int)
    (address : Nat) : (forget position address log).index.entries <+: log.index.entries := by
  simp only [forget, BlockIndex.truncateFrom, BlockIndex.truncateAfter, BlockIndex.entries_restrict,
    List.filter_filter]
  refine BlockIndex.filter_isPrefix ((log.index.sorted.and hrising).imp fun {e f} hlt hkept => ?_)
  simp only [Bool.and_eq_true, decide_eq_true_eq] at hkept ⊢
  omega

/-- A cut at a record leaves the records before it. -/
theorem Dense.kept (h : Dense t start payloads) {r : Record} (hmem : r ∈ t.log.records) :
    ∃ kept, Frame.Readable start kept ∧ r.position = start + Frame.span kept ∧
      t.log.storage.stored.take r.address = Frame.encodeRun start kept ∧
      (Frame.encodeRun start kept).length = r.address ∧
      ∀ s, s ∈ Frame.recordsOf start 0 kept ↔ s ∈ t.log.records ∧ s.address < r.address := by
  obtain ⟨kept, x, gone, rfl, hr⟩ := Frame.exists_split_of_mem (h.records ▸ hmem)
  obtain ⟨hposition, haddress⟩ : r.position = start + Frame.span kept ∧
      r.address = (Frame.encodeRun start kept).length := by simp [hr]
  refine ⟨kept, (Frame.readable_append.1 h.readable).1, hposition, ?_, haddress.symm, fun s => ?_⟩
  · rw [h.stored, haddress, Frame.encodeRun_append, List.take_left]
  · rw [h.records, haddress]
    constructor
    · intro hs
      have := Frame.address_lt_of_mem hs
      exact ⟨Frame.recordsOf_append start 0 kept (x :: gone) ▸ List.mem_append_left _ hs, by omega⟩
    · rintro ⟨hs, hlt⟩
      exact Frame.mem_recordsOf_of_lt hs (by omega)

/-- A record that is not empty and lies before a cut keeps the entries up to it. -/
theorem Dense.covers_forget (h : Dense t start payloads) {r s : Record} {storage : Storage}
    (hs : s ∈ t.log.records) (hposition : s.position < r.position) (hlt : s.address < r.address)
    (hkept : ∀ u, u ∈ t.log.records → u.address < r.address →
      u ∈ (forget r.position r.address { t.log with storage }).records)
    (hcovers : t.log.index.Covers t.log.sampling.threshold t.log.Hollow s.address) :
    (forget r.position r.address { t.log with storage }).index.Covers t.log.sampling.threshold
      (forget r.position r.address { t.log with storage }).Hollow s.address := by
  refine hcovers.congr (fun e hle => ?_) fun e hle ⟨u, hu, hplace, hempty⟩ =>
    ⟨u, hkept u hu (by omega), hplace, hempty⟩
  refine mem_forget.trans (and_iff_left_of_imp fun he => ⟨?_, by omega⟩)
  obtain ⟨u, hu, rfl⟩ := h.picks e he
  have := Frame.position_le_of_address_le (h.records ▸ hu) (h.records ▸ hs) hle
  dsimp only
  omega

theorem Dense.cut (h : Dense t start payloads) {r : Record} {storage : Storage}
    (hmem : r ∈ t.log.records)
    (hcut : (Storage.truncate r.address).run t.log.storage = (.ok (), storage)) :
    ∃ kept, Dense (t.cut (forget r.position r.address { t.log with storage }) r.address) start kept := by
  obtain ⟨hsound, -, hstored⟩ := Storage.truncate_ok h.sound hcut
  obtain ⟨kept, hreadable, hposition, htake, hlength, hkept⟩ := h.kept hmem
  have hrun : (forget r.position r.address { t.log with storage }).storage.stored
      = Frame.encodeRun start kept := hstored.trans htake
  have hrecords := records_of_stored hrun hreadable
  have hleft : ∀ s, s ∈ t.log.records → s.address < r.address →
      s ∈ (forget r.position r.address { t.log with storage }).records :=
    fun s hs hlt => hrecords ▸ (hkept s).2 ⟨hs, hlt⟩
  have hpicks : (forget r.position r.address { t.log with storage }).index.PicksFrom
      (forget r.position r.address { t.log with storage }).records := by
    intro e he
    obtain ⟨he, -, hlt⟩ := mem_forget.1 he
    obtain ⟨s, hs, rfl⟩ := h.picks e he
    exact ⟨s, hleft s hs hlt, rfl⟩
  obtain ⟨hdescribes, hbelow⟩ := describes_of_picks hreadable hrun hpicks
  exact ⟨kept, {
    sound := hsound
    describes := hdescribes
    below := hbelow
    picks := hpicks
    starts := fun s hs => by
      obtain ⟨hs, hlt⟩ := List.mem_filter.1 hs
      exact hleft s (h.starts s hs) (of_decide_eq_true hlt)
    covers := fun s hs hne => by
      obtain ⟨hs, hlt⟩ := List.mem_filter.1 hs
      have hlt : s.address < r.address := of_decide_eq_true hlt
      have hbefore := Frame.lt_or_empty_of_mem hposition.symm ((hkept s).2 ⟨h.starts s hs, hlt⟩)
      exact h.covers_forget (h.starts s hs) (hbefore.resolve_right fun hempty => hne hempty.2) hlt
        hleft (h.covers s hs hne)
    chain := List.IsChain.prefix h.chain (forget_isPrefix h.describes.rising _ _)
    past := fun e he => Nat.le_succ_of_le (h.past e (mem_forget.1 he).1)
    readable := hreadable
    stored := hrun
    ready := .inl ⟨rfl, fun e he => by
      obtain ⟨he, hbefore, hlt⟩ := mem_forget.1 he
      refine ⟨Nat.lt_succ_of_le (h.past e he), by omega, ?_⟩
      exact Nat.lt_of_lt_of_eq hlt (hlength.symm.trans (congrArg List.length hrun).symm)⟩ }⟩

/-! ### Other calls -/

/-- What keeps the stored bytes, the index and the count keeps the rest. -/
theorem Dense.call (h : Dense t start payloads) (hkeeps : t.log.storage.Keeps after.storage)
    (hindex : after.index = t.log.index)
    (hsampling : after.sampling = { t.log.sampling with isOpen := after.sampling.isOpen }) :
    Dense { t with log := after } start payloads := by
  obtain ⟨hsound, hstored⟩ := hkeeps
  have hrecords : after.records = t.log.records := by rw [IndexedLog.records, hstored]; rfl
  have hhollow : after.Hollow = t.log.Hollow := by
    unfold Hollow
    rw [hrecords]
  have hthreshold : after.sampling.threshold = t.log.sampling.threshold := by rw [hsampling]
  have hsince : after.sampling.sinceEntry = t.log.sampling.sinceEntry := by rw [hsampling]
  exact {
    sound := hsound
    describes := by
      dsimp only
      rw [hindex, hstored]
      exact h.describes
    below := by
      dsimp only
      rw [hindex, hstored]
      exact h.below
    picks := by
      dsimp only
      rw [hindex, hrecords]
      exact h.picks
    starts := hrecords ▸ h.starts
    covers := by
      dsimp only
      rw [hindex, hthreshold, hhollow]
      exact h.covers
    chain := by
      dsimp only
      rw [hindex]
      exact h.chain.imp fun e f hapart => hapart.imp_left fun hgap => hthreshold ▸ hgap
    past := hindex ▸ h.past
    readable := h.readable
    stored := hstored.trans h.stored
    ready := by
      dsimp only
      rw [hindex, hhollow, hsince, hstored]
      exact h.ready }

/-- Closing leaves the index and the count. -/
theorem persist_leaves {answer : Except LogError Unit} (h : persist.run log = (answer, after)) :
    after.index = log.index ∧
      after.sampling = { log.sampling with isOpen := after.sampling.isOpen } := by
  obtain rfl : (persist.run log).2 = after := by rw [h]
  unfold Attempt.run persist
  split
  · exact ⟨rfl, rfl⟩
  · dsimp only
    split
    · exact ⟨rfl, rfl⟩
    · split
      · exact ⟨rfl, rfl⟩
      · exact ⟨rfl, rfl⟩

/-! ## Every log that is tended -/

theorem dense_of_tended (h : t.Tended) : ∃ start payloads, Dense t start payloads := by
  induction h with
  | opened sound unindexed unsaved recovers =>
    exact (upkept_unindexed sound unindexed).recover unsaved recovers
  | written _ readable follows append note ih =>
    obtain ⟨start, payloads, hdense⟩ := ih
    obtain ⟨start, hdense, rfl⟩ := hdense.next follows
    exact ⟨start, _, hdense.write readable append note⟩
  | truncated _ stored truncate ih =>
    obtain ⟨start, payloads, hdense⟩ := ih
    exact ⟨start, hdense.cut stored truncate⟩
  | reopened _ unsaved recovers ih =>
    obtain ⟨start, payloads, hdense⟩ := ih
    exact hdense.toUpkept.recover unsaved recovers
  | closed _ closes keeps ih =>
    obtain ⟨start, payloads, hdense⟩ := ih
    obtain ⟨hindex, hsampling⟩ := persist_leaves closes
    exact ⟨start, payloads, hdense.call keeps hindex hsampling⟩
  | called _ keeps ih =>
    obtain ⟨start, payloads, hdense⟩ := ih
    exact ⟨start, payloads, hdense.call keeps rfl rfl⟩

/-- Two entries that follow one another keep the threshold, or the log was cut between adding the one
and the other. A record that begins a block or was scanned, and is still stored and not empty, has an
entry or lies less than the threshold behind the nearest one, unless this is the entry of an empty
record. -/
theorem index_dense (h : t.Tended) : t.log.index.entries.IsChain t.Apart ∧ ∀ r ∈ t.starts,
    r ∈ t.log.records ∧ (r.payload ≠ [] →
      t.log.index.Covers t.log.sampling.threshold t.log.Hollow r.address) := by
  obtain ⟨start, payloads, hdense⟩ := dense_of_tended h
  exact ⟨hdense.chain, fun r hr => ⟨hdense.starts r hr, hdense.covers r hr⟩⟩

/-- A log in memory that is opened, and the log after a block is put behind its last record, after it
is cut at a record and after it is recovered. -/
def sparseLog (payloads : List Bytes) : IndexedLog where
  storage := { medium := .memory true (Frame.encodeRun 0 payloads) 0 }
  sampling := { threshold := 20, windowSize := 256 }

def withBlock (log : IndexedLog) (position : Int) (block : List Bytes) : IndexedLog :=
  ((noteBlock position log.storage.stored.length (Frame.encodeRun position block).length).run
    { log with storage := ((Storage.append (Frame.encodeRun position block)).run log.storage).2 }).2

def cutAt (log : IndexedLog) (r : Record) : IndexedLog :=
  forget r.position r.address
    { log with storage := ((Storage.truncate r.address).run log.storage).2 }

def recovered (log : IndexedLog) : IndexedLog := ((recover (-1)).run log).2

theorem tended_sparseLog (payloads : List Bytes) (found : Recovered)
    (h : ((recover (-1)).run (sparseLog payloads)).1.toOption = some found) :
    (Tracked.follow { log := sparseLog payloads } (recovered (sparseLog payloads))
      ((recovered (sparseLog payloads)).scannedBy found)).Tended :=
  .opened trivial rfl rfl (Attempt.run_of_toOption h)

theorem tended_withBlock (ht : t.Tended) (position : Int) (first : Bytes)
    (hr : Frame.Readable position [first])
    (hfollows : t.log.records.getLast?.map Record.nextPosition ∈ [none, some position])
    (h : ((Storage.append (Frame.encodeRun position [first])).run t.log.storage).1.toOption
      = some t.log.storage.stored.length) :
    (t.follow (withBlock t.log position [first])
      [⟨position, t.log.storage.stored.length, first⟩]).Tended := by
  refine .written ht hr (fun last hl => ?_) (Attempt.run_of_toOption h) rfl
  simpa [hl, eq_comm] using hfollows

theorem tended_cutAt (ht : t.Tended) (r : Record) (hr : r ∈ t.log.records)
    (h : ((Storage.truncate r.address).run t.log.storage).1.toOption = some ()) :
    (t.cut (cutAt t.log r) r.address).Tended :=
  .truncated ht hr (Attempt.run_of_toOption h)

theorem tended_recovered (ht : t.Tended) (hpath : t.log.sampling.snapshotPath = none)
    (found : Recovered) (h : ((recover (-1)).run t.log).1.toOption = some found) :
    (t.follow (recovered t.log) ((recovered t.log).scannedBy found)).Tended :=
  .reopened ht (loadSnapshot_of_none hpath) (Attempt.run_of_toOption h)

/-- The second block begins 19 bytes behind the first entry and has none, until the log is cut there
and written again. -/
theorem index_dense_recut : ∃ t : Tracked, t.Tended ∧ t.log.index.entries = [⟨0, 0⟩, ⟨3, 19⟩] ∧
    t.starts.map Record.address = [0, 19, 19] ∧ t.log.index.entries.IsChain t.Apart ∧
    ∀ r ∈ t.starts, r ∈ t.log.records ∧ (r.payload ≠ [] →
      t.log.index.Covers t.log.sampling.threshold t.log.Hollow r.address) := by
  have hopened := tended_sparseLog [] {} (by decide +kernel)
  have hwritten := tended_withBlock hopened 0 [1, 2, 3]
    (by simp [Frame.Readable, Frame.Framable]) (by decide +kernel) (by decide +kernel)
  have hpassed := tended_withBlock hwritten 3 [4]
    (by simp [Frame.Readable, Frame.Framable]) (by decide +kernel) (by decide +kernel)
  have hcut := tended_cutAt hpassed ⟨3, 19, [4]⟩ (by decide +kernel) (by decide +kernel)
  have hforced := tended_withBlock hcut 3 [5]
    (by simp [Frame.Readable, Frame.Framable]) (by decide +kernel) (by decide +kernel)
  have hreopened := tended_recovered hforced (by decide +kernel)
    { nextPosition := 4, lastPosition := some 3, scanned := 1 } (by decide +kernel)
  exact ⟨_, hreopened, by decide +kernel, by decide +kernel, index_dense hreopened⟩

/-- Behind the entry of an empty record the third record, 33 bytes further, has none; and a cut behind
an empty record drops the entry of that one too, as the two have one position. -/
theorem not_dense_behind_empty :
    (∃ (t : Tracked) (r : Record), t.Tended ∧ r ∈ t.starts ∧ r.payload ≠ [] ∧
      ¬ t.log.index.Covers t.log.sampling.threshold (fun _ => False) r.address) ∧
    ∃ (t : Tracked) (r : Record), t.Tended ∧ r ∈ t.starts ∧
      ¬ t.log.index.Covers t.log.sampling.threshold t.log.Hollow r.address := by
  constructor
  · have hopened := tended_sparseLog [[], [1], [2]]
      { nextPosition := 2, lastPosition := some 1, scanned := 3 } (by decide +kernel)
    exact ⟨_, ⟨1, 33, [2]⟩, hopened, by decide +kernel, by simp,
      BlockIndex.not_covers (e := ⟨0, 0⟩) (by decide +kernel) (by decide +kernel) (by decide) id⟩
  · have hopened := tended_sparseLog [[1, 1, 1, 1], [], [2]]
      { nextPosition := 5, lastPosition := some 4, scanned := 3 } (by decide +kernel)
    have hcut := tended_cutAt hopened ⟨4, 36, [2]⟩ (by decide +kernel) (by decide +kernel)
    exact ⟨_, ⟨4, 20, []⟩, hcut, by decide +kernel,
      BlockIndex.not_covers (e := ⟨0, 0⟩) (by decide +kernel) (by decide +kernel) (by decide)
        (by unfold Hollow; decide +kernel)⟩

end IndexedLog

end PartitionLog
