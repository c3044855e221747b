import PartitionLog.Proofs.Drain
import PartitionLog.Proofs.Seeking
import PartitionLog.Proofs.SnapshotFiles

/-!
# Logs that hold some payloads

An open log `Holds` some payloads if it is their frames from position 0 on and its index lists places
of their records. A recovery that succeeds gives a log that does (`recover_holds`), if the entries to
start from list records of what the log begins with (`Suits`); it succeeds where the log is whole
(`recover_whole`). Blocks that are noted (`Holds.noteBlock`) and cuts between two records
(`Holds.forget`) give such logs again.
-/

namespace PartitionLog

namespace Storage

variable {s t : Storage} {path : String} {number : Nat}

/-- Without faults a block is put at the end of the file. -/
theorem OpenAt.append (h : s.OpenAt path number) (block : Bytes) :
    ∃ t, (Storage.append block).run s = (.ok s.stored.length, t) ∧ s.Confined t ∧
      t.OpenAt path number ∧ t.stored = s.stored ++ block := by
  obtain ⟨endAddress, hm⟩ := medium_of_site h.site
  obtain ⟨u, -, ⟨hmedium, -⟩, hrun⟩ : ∃ u, s.Confined u ∧ s.Alike u ∧
      (Storage.append block).run s = (appendMedium block).run u := Faultless.run_call h.works.passes
  have hok : ∃ address t, (Storage.append block).run s = (.ok address, t) := by
    rw [hrun]
    unfold Attempt.run appendMedium
    rw [hmedium, hm]
    exact ⟨endAddress, _, rfl⟩
  obtain ⟨address, t, happend⟩ := hok
  have hconfined : s.Confined t := (Confines.append block).run happend
  obtain ⟨hsound, rfl, hstored⟩ := append_ok h.works.sound happend
  exact ⟨t, happend, hconfined, h.confined hconfined hsound, hstored⟩

theorem OpenAt.flush (h : s.OpenAt path number) :
    ∃ t, Storage.flush.run s = (.ok (), t) ∧ s.Confined t ∧ t.OpenAt path number ∧
      t.stored = s.stored := by
  obtain ⟨endAddress, hm⟩ := medium_of_site h.site
  obtain ⟨u, -, ⟨hmedium, -⟩, hrun⟩ : ∃ u, s.Confined u ∧ s.Alike u ∧
      Storage.flush.run s = flushMedium.run u := Faultless.run_call h.works.passes
  have hok : ∃ t, Storage.flush.run s = (.ok (), t) := by
    rw [hrun]
    unfold Attempt.run flushMedium
    rw [hmedium, hm]
    exact ⟨u, rfl⟩
  obtain ⟨t, hflush⟩ := hok
  have hconfined : s.Confined t := Confines.flush.run hflush
  obtain ⟨hsound, hstored⟩ := flush_keeps h.works.sound hflush
  exact ⟨t, hflush, hconfined, h.confined hconfined hsound, hstored⟩

end Storage

namespace BlockIndex.Lists

variable {ix : BlockIndex} {payloads : List Bytes}

/-- Listed entries lie inside the log. -/
theorem below (h : ix.Lists payloads) : ix.Below (Frame.encodeRun 0 payloads).length :=
  h.picksFrom.below

theorem restrict (h : ix.Lists payloads) (keep : IndexEntry → Bool) :
    (ix.restrict keep).Lists payloads := fun e he => h e (List.mem_filter.1 he).1

/-- Entries that list the records of a log describe it. -/
theorem describes (h : ix.Lists payloads) (hr : Frame.Readable 0 payloads) :
    ix.Describes (Frame.encodeRun 0 payloads) :=
  h.picksFrom.describes hr

/-- What is cut off takes its entries with it. -/
theorem cut {kept gone : List Bytes} (h : ix.Lists (kept ++ gone))
    (hbelow : ix.Below (Frame.encodeRun 0 kept).length) : ix.Lists kept := by
  intro e he
  obtain ⟨r, hr, hplace⟩ := h e he
  have := hbelow e he
  exact ⟨r, Frame.mem_recordsOf_of_lt hr (by omega), hplace⟩

/-- A search starts between two records. -/
theorem startFor (h : ix.Lists payloads) (position : Int) : ∃ before rest, payloads = before ++ rest ∧
    ix.startFor position Storage.firstAddress = (Frame.encodeRun 0 before).length := by
  unfold BlockIndex.startFor
  cases hl : ix.lookup position with
  | none => exact ⟨[], payloads, rfl, rfl⟩
  | some e =>
    obtain ⟨before, x, rest, hsplit, rfl⟩ :=
      h.inside (List.mem_filter.1 (List.mem_of_getLast? hl)).1
    exact ⟨before, x :: rest, hsplit, rfl⟩

end BlockIndex.Lists

/-- The entries list records of what a log begins with, if it is not empty. -/
def BlockIndex.Suits (ix : BlockIndex) (log : Bytes) : Prop :=
  ∃ payloads, Frame.Readable 0 payloads ∧ ix.Lists payloads ∧
    (log = [] ∨ Frame.encodeRun 0 payloads <+: log)

namespace BlockIndex.Suits

variable {ix : BlockIndex} {log : Bytes} {payloads : List Bytes}

theorem empty (log : Bytes) : BlockIndex.empty.Suits log :=
  ⟨[], trivial, fun e he => by simp [BlockIndex.empty] at he, .inr List.nil_prefix⟩

theorem describes (h : ix.Suits log) : ix.Describes log := by
  obtain ⟨payloads, hr, hlists, rfl | ⟨more, rfl⟩⟩ := h
  · exact (hlists.describes hr).of_isPrefix List.nil_prefix
  · exact (hlists.describes hr).append hlists.below more

/-- Entries inside a run that the log begins with list its records. -/
theorem lists (h : ix.Suits log) (hr : Frame.Readable 0 payloads)
    (hrun : Frame.encodeRun 0 payloads <+: log) :
    (ix.truncateFrom (Frame.encodeRun 0 payloads).length).Lists payloads := by
  obtain ⟨others, hothers, hlists, rfl | hlog⟩ := h
  · rw [List.prefix_nil.1 hrun]
    intro e he
    simpa using below_truncateFrom _ _ e he
  · -- of two runs that the log begins with one goes on from the other
    obtain ⟨gone, rfl⟩ | ⟨more, rfl⟩ : payloads <+: others ∨ others <+: payloads :=
      (List.prefix_or_prefix_of_prefix hrun hlog).imp (Frame.isPrefix_of_encodeRun hr hothers)
        (Frame.isPrefix_of_encodeRun hothers hr)
    · exact (hlists.restrict _).cut (below_truncateFrom _ _)
    · intro e he
      obtain ⟨r, hmem, hplace⟩ := hlists e (List.mem_filter.1 he).1
      exact ⟨r, Frame.mem_recordsOf_append hmem more, hplace⟩

end BlockIndex.Suits

namespace IndexedLog

variable {log after : IndexedLog} {base : Storage} {target : Option String} {payloads : List Bytes}

/-- The log is the frames of the payloads, in the file that was opened as `base`, and its snapshot
belongs at `target`. -/
structure Holds (log : IndexedLog) (base : Storage) (target : Option String)
    (payloads : List Bytes) : Prop where
  sound : log.storage.Sound
  confined : base.Confined log.storage
  stored : log.storage.stored = Frame.encodeRun 0 payloads
  short : ∀ x ∈ payloads, x.length < 2 ^ 32
  lists : log.index.Lists payloads
  isOpen : log.sampling.isOpen = true
  snapshotPath : log.sampling.snapshotPath = target

/-- Calls that keep the stored bytes keep what is held. -/
theorem Holds.storage (h : log.Holds base target payloads) {t : Storage} (hc : log.storage.Confined t)
    (hk : log.storage.Keeps t) : ({ log with storage := t } : IndexedLog).Holds base target payloads :=
  { h with sound := hk.1, confined := h.confined.trans hc, stored := hk.2.trans h.stored }

/-! ## Recovering -/

/-- A recovery that succeeds opens the index. -/
theorem recover_opens {commit : Int} {found : Recovered} (hs : log.storage.Sound)
    (h : (recover commit).run log = (.ok found, after)) : after.sampling.isOpen = true := by
  obtain ⟨e, storage, -, hbad, -, -⟩ | ⟨storage, index, reading, -, -, -, htail⟩ :=
    recover_cases hs h
  · simp at hbad
  · obtain ⟨e, -, hbad, -⟩ | ⟨-, -, rfl⟩ | ⟨bad, damage, -, ⟨e, t, -, hbad, -⟩ | ⟨t, -, -, rfl⟩⟩ :=
      recoverTail_cases rfl htail
    · simp at hbad
    · rfl
    · simp at hbad
    · rfl

/-- A recovery that succeeds leaves the payloads that can be read from the beginning on. -/
theorem recover_holds {commit : Int} {found : Recovered} (hs : log.storage.Sound)
    (hsuits : log.loadSnapshot.index.Suits log.storage.stored)
    (hfirst : ∀ r, Frame.decode log.storage.stored 0 = .ok (some r) → r.position = 0)
    (h : (recover commit).run log = (.ok found, after)) :
    ∃ payloads, after.Holds log.storage log.sampling.snapshotPath payloads ∧
      found.nextPosition = Frame.span payloads ∧ Frame.Readable 0 payloads ∧
      (Frame.walk log.storage.stored Storage.firstAddress).1 = Frame.recordsOf 0 0 payloads := by
  obtain ⟨start, payloads, hrecovers⟩ := recover_loaded hs hsuits.describes h
  have hto := hrecovers.from_first hfirst
  refine ⟨payloads, ?_, hto.next_eq_span, hto.readable, hto.walk⟩
  exact {
    sound := hto.sound
    confined := recover_confined h
    stored := hto.stored
    short := hto.readable.lengths
    lists := by
      intro e he
      have hmarks := hto.describes.marks e he
      have hlt := hto.below e he
      rw [hto.stored] at hmarks hlt
      rcases recover_loaded_names hs h e he with hloaded | hnamed
      · exact hsuits.lists hto.readable hto.bytes e
          (List.mem_filter.2 ⟨hloaded, decide_eq_true hlt⟩)
      · obtain ⟨rest, hrest⟩ := hto.bytes
        exact hnamed.listed_before hrest.symm hto.readable hmarks hlt
    isOpen := recover_opens hs h
    snapshotPath := hto.snapshotPath }

/-- The payloads of a log that is whole are those that a walk through it finds. -/
theorem eq_of_walk {log : Bytes} {others : List Bytes} (hlog : log = Frame.encodeRun 0 payloads)
    (hr : Frame.Readable 0 payloads)
    (hwalk : (Frame.walk log Storage.firstAddress).1 = Frame.recordsOf 0 0 others) :
    others = payloads := by
  have hread := Frame.walk_encodeRun hr [] 0
  rw [List.append_nil, Frame.walk_nil, List.append_nil] at hread
  rw [hlog, Storage.firstAddress, hread] at hwalk
  have hmap := congrArg (List.map Record.payload) hwalk
  rw [Frame.map_payload_recordsOf, Frame.map_payload_recordsOf] at hmap
  exact hmap.symm

/-- A whole log is recovered with all its payloads. -/
theorem recover_whole (commit : Int) (hworks : log.storage.Works)
    (hlog : log.storage.stored = Frame.encodeRun 0 payloads)
    (hr : Frame.Readable 0 payloads)
    (hsuits : log.loadSnapshot.index.Suits log.storage.stored) :
    ∃ found after, (recover commit).run log = (.ok found, after) ∧
      after.Holds log.storage log.sampling.snapshotPath payloads ∧
      found.nextPosition = Frame.span payloads := by
  have hs := hworks.sound
  generalize hrun : (recover commit).run log = result
  obtain ⟨r, after⟩ := result
  obtain ⟨storage, hend⟩ := hworks.endAddress
  have hlists : (log.loadSnapshot.index.truncateFrom log.storage.stored.length).Lists payloads :=
    hlog ▸ hsuits.lists hr (hlog ▸ List.prefix_rfl)
  obtain ⟨found, t, -, -, hsettle⟩ := recover_settles hs (hworks.passes .read)
    (hlog.trans (List.append_nil _).symm) hr hlists hend hrun
  have hwhole := Scan.courseAt_whole hlog hr
  rw [hwhole] at hsettle
  obtain ⟨rfl, -⟩ : .ok found = r ∧ t = after.storage := by simpa [settle] using hsettle
  have hfirst : ∀ r, Frame.decode log.storage.stored 0 = .ok (some r) → r.position = 0 := by
    intro r hd
    rw [← List.drop_zero (l := log.storage.stored)] at hd
    obtain ⟨x, rest, -, rfl, -⟩ := Reading.cons_of_decode (List.drop_zero.trans hlog) hr hd
    rfl
  obtain ⟨others, hholds, hnext, -, hwalk⟩ := recover_holds hs hsuits hfirst hrun
  obtain rfl := eq_of_walk hlog hr hwalk
  exact ⟨found, after, rfl, hholds, hnext⟩

/-! ## Appending and cutting -/

/-- Noting a block that was appended, whether or not the index takes it. -/
theorem Holds.noteBlock (h : log.Holds base target payloads) {fragments : List Bytes} {length : Nat}
    {t : Storage} {r : Except LogError Unit} (ht : t.Sound) (hc : log.storage.Confined t)
    (hstored : t.stored = log.storage.stored ++ Frame.encodeRun (Frame.span payloads) fragments)
    (hne : fragments ≠ []) (hshort : ∀ x ∈ fragments, x.length < 2 ^ 32)
    (hr : (noteBlock (Frame.span payloads) log.storage.stored.length length).run
      { log with storage := t } = (r, after)) :
    after.Holds base target (payloads ++ fragments) ∧ after.storage = t := by
  obtain ⟨hstorage, hsampling, hindex⟩ := noteBlock_leaves hr
  refine ⟨?_, hstorage⟩
  exact {
    sound := hstorage ▸ ht
    confined := hstorage ▸ h.confined.trans hc
    stored := by rw [hstorage, hstored, h.stored, Frame.encodeRun_append, Int.zero_add]
    short := fun x hx => (List.mem_append.1 hx).elim (h.short x) (hshort x)
    lists := h.lists.extend h.stored hne hindex
    isOpen := by rw [hsampling]; exact h.isOpen
    snapshotPath := by rw [hsampling]; exact h.snapshotPath }

/-- Cutting the log between two records, and forgetting what is cut off. -/
theorem Holds.forget {kept gone : List Bytes} (h : log.Holds base target (kept ++ gone)) {t : Storage}
    (ht : t.Sound) (hc : log.storage.Confined t) (position : Int)
    (hstored : t.stored = log.storage.stored.take (Frame.encodeRun 0 kept).length) :
    (forget position (Frame.encodeRun 0 kept).length { log with storage := t }).Holds base target
      kept where
  sound := ht
  confined := h.confined.trans hc
  stored := hstored.trans (by rw [h.stored, Frame.encodeRun_append, List.take_left])
  short x hx := h.short x (List.mem_append_left _ hx)
  lists := ((h.lists.restrict _).restrict _).cut (BlockIndex.below_truncateFrom _ _)
  isOpen := h.isOpen
  snapshotPath := h.snapshotPath

end IndexedLog

end PartitionLog
