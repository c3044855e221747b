import PartitionLog.Proofs.Kept
import PartitionLog.Proofs.Recovery

/-!
# What recovering and cutting keep

A log that an appender keeps is recovered with all its payloads, and the appender is settled when it
is moved behind them (`Kept.recover_ok`); a recovery that fails leaves what was kept
(`Kept.recover_error`). Cutting the log of a settled appender between two records keeps the payloads
before the cut (`Kept.cut`), and looking for a position finds such a place (`Settled.findAddress`).
-/

namespace PartitionLog

namespace Frame

theorem map_payload_recordsOf (position : Int) (address : Nat) (payloads : List Bytes) :
    (recordsOf position address payloads).map Record.payload = payloads := by
  induction payloads generalizing position address with
  | nil => rfl
  | cons x rest ih => simp [recordsOf, ih]

theorem address_le_of_mem {position : Int} {address : Nat} {payloads : List Bytes} {r : Record}
    (h : r ∈ recordsOf position address payloads) : address ≤ r.address := by
  induction payloads generalizing position address with
  | nil => simp [recordsOf] at h
  | cons x rest ih =>
    rcases List.mem_cons.1 h with rfl | h
    · exact Nat.le_refl _
    · have := ih h
      omega

theorem position_le_of_mem {position : Int} {address : Nat} {payloads : List Bytes} {r : Record}
    (h : r ∈ recordsOf position address payloads) : position ≤ r.position := by
  induction payloads generalizing position address with
  | nil => simp [recordsOf] at h
  | cons x rest ih =>
    rcases List.mem_cons.1 h with rfl | h
    · exact Int.le_refl _
    · have := ih h
      omega

/-- A record of a run begins where the one before it ends, or behind that. -/
theorem nextPosition_le_recordsOf (position : Int) (address : Nat) (payloads : List Bytes) :
    (recordsOf position address payloads).Pairwise (·.nextPosition ≤ ·.position) := by
  induction payloads generalizing position address with
  | nil => exact .nil
  | cons x rest ih => exact List.pairwise_cons.2 ⟨fun r hr => position_le_of_mem hr, ih ..⟩

theorem sorted_recordsOf (position : Int) (address : Nat) (payloads : List Bytes) :
    (recordsOf position address payloads).Pairwise (·.position ≤ ·.position) := by
  refine (nextPosition_le_recordsOf position address payloads).imp fun {r _} hle => ?_
  unfold Record.nextPosition at hle
  omega

/-- Along a run the positions do not fall. -/
theorem position_le_of_address_le {position : Int} {address : Nat} {payloads : List Bytes}
    {r s : Record} (hr : r ∈ recordsOf position address payloads)
    (hs : s ∈ recordsOf position address payloads) (h : r.address ≤ s.address) :
    r.position ≤ s.position := by
  induction payloads generalizing position address with
  | nil => simp [recordsOf] at hr
  | cons x rest ih =>
    rcases List.mem_cons.1 hr with rfl | hr
    · exact position_le_of_mem hs
    · rcases List.mem_cons.1 hs with rfl | hs
      · have := address_le_of_mem hr
        simp only [lengthFor, headerLength] at this h
        omega
      · exact ih hr hs

/-- A record of a run lies behind the frames of the payloads before it. -/
theorem exists_split_of_mem {position : Int} {address : Nat} {payloads : List Bytes} {r : Record}
    (h : r ∈ recordsOf position address payloads) :
    ∃ before x rest, payloads = before ++ x :: rest ∧
      r = ⟨position + span before, address + (encodeRun position before).length, x⟩ := by
  induction payloads generalizing position address with
  | nil => simp [recordsOf] at h
  | cons x rest ih =>
    rcases List.mem_cons.1 h with rfl | h
    · exact ⟨[], x, rest, rfl, by simp [encodeRun]⟩
    · obtain ⟨before, y, more, rfl, rfl⟩ := ih h
      refine ⟨x :: before, y, more, rfl, ?_⟩
      simp only [span_cons, encodeRun, List.length_append, length_encode, Record.mk.injEq, and_true]
      exact ⟨by omega, by omega⟩

/-- A record of a run begins inside it. -/
theorem address_lt_of_mem {position : Int} {address : Nat} {payloads : List Bytes} {r : Record}
    (h : r ∈ recordsOf position address payloads) :
    r.address < address + (encodeRun position payloads).length := by
  obtain ⟨before, x, rest, rfl, rfl⟩ := exists_split_of_mem h
  have hx := length_encode (position + span before) x
  unfold lengthFor headerLength at hx
  rw [encodeRun_append, encodeRun, List.length_append, List.length_append, hx]
  dsimp only
  omega

/-- Records that begin before the end of what is kept are records of it. -/
theorem mem_recordsOf_of_lt {position : Int} {address : Nat} {kept gone : List Bytes} {r : Record}
    (h : r ∈ recordsOf position address (kept ++ gone))
    (hlt : r.address < address + (encodeRun position kept).length) :
    r ∈ recordsOf position address kept := by
  rw [recordsOf_append] at h
  rcases List.mem_append.1 h with h | h
  · exact h
  · have := address_le_of_mem h
    omega

/-- Without empty records the positions of a run rise. -/
theorem rising_recordsOf {payloads : List Bytes} (hne : ∀ x ∈ payloads, x ≠ []) (position : Int)
    (address : Nat) :
    (recordsOf position address payloads).Pairwise (·.position < ·.position) := by
  refine (nextPosition_le_recordsOf position address payloads).imp_of_mem fun {r _} hr _ hle => ?_
  obtain ⟨before, x, rest, rfl, rfl⟩ := exists_split_of_mem hr
  have := List.length_pos_iff.2 (hne x (List.mem_append_right _ List.mem_cons_self))
  unfold Record.nextPosition at hle
  dsimp only at hle ⊢
  omega

/-- A record of what is kept at a cut has its position before the cut, or is empty. -/
theorem lt_or_empty_of_mem {kept : List Bytes} {start position : Int} {address : Nat} {r : Record}
    (hspan : start + span kept = position) (h : r ∈ recordsOf start address kept) :
    r.position < position ∨ r.position = position ∧ r.payload = [] := by
  obtain ⟨before, x, rest, rfl, rfl⟩ := exists_split_of_mem h
  rw [span_append, span_cons] at hspan
  dsimp only
  by_cases hempty : x = []
  · subst hempty
    rw [List.length_nil] at hspan
    by_cases hrest : span rest = 0
    · exact .inr ⟨by omega, rfl⟩
    · exact .inl (by omega)
  · have := List.length_pos_iff.2 hempty
    exact .inl (by omega)

/-- Where no empty record has the position of a cut, what is kept are the records before it. -/
theorem filter_recordsOf_kept {kept gone : List Bytes} {position : Int} (hspan : span kept = position)
    (hne : ∀ r ∈ recordsOf 0 0 kept, r.position = position → r.payload ≠ []) :
    (recordsOf 0 0 (kept ++ gone)).filter (·.position < position) = recordsOf 0 0 kept := by
  have hbefore : (recordsOf 0 0 kept).filter (·.position < position) = recordsOf 0 0 kept := by
    refine List.filter_eq_self.2 fun r hr => ?_
    rcases lt_or_empty_of_mem ((Int.zero_add _).trans hspan) hr with hlt | ⟨hposition, hempty⟩
    · simpa using hlt
    · exact absurd hempty (hne r hr hposition)
  have hbehind : (recordsOf (0 + span kept) (0 + (encodeRun 0 kept).length) gone).filter
      (·.position < position) = [] := by
    refine List.filter_eq_nil_iff.2 fun r hr => ?_
    have := position_le_of_mem hr
    simp only [decide_eq_true_eq]
    omega
  rw [recordsOf_append, List.filter_append, hbefore, hbehind, List.append_nil]

/-- The record that a run begins with. -/
theorem decode_run {position : Int} {payload : Bytes} {rest : List Bytes}
    (h : Readable position (payload :: rest)) {log : Bytes}
    (hlog : encodeRun position (payload :: rest) <+: log) (address : Nat) :
    decode log address = .ok (some ⟨position, address, payload⟩) := by
  obtain ⟨more, rfl⟩ := hlog
  rw [encodeRun, List.append_assoc]
  exact decode_encode h.1 _ _

/-- Two runs at the beginning of one log have one first position, unless one is empty. -/
theorem start_eq {start position : Int} {xs ys : List Bytes} {log : Bytes}
    (hx : Readable start xs) (hy : Readable position ys) (hxlog : encodeRun start xs <+: log)
    (hylog : encodeRun position ys <+: log) (hxne : xs ≠ []) (hyne : ys ≠ []) :
    start = position := by
  obtain ⟨x, xs, rfl⟩ := List.exists_cons_of_ne_nil hxne
  obtain ⟨y, ys, rfl⟩ := List.exists_cons_of_ne_nil hyne
  have hdx := decode_run hx hxlog 0
  rw [decode_run hy hylog 0] at hdx
  simp only [Except.ok.injEq, Option.some.injEq, Record.mk.injEq] at hdx
  exact hdx.1.symm

/-- Where the last record of a run ends. -/
theorem next_recordsOf {position : Int} {address : Nat} {payloads : List Bytes}
    (h : payloads ≠ []) :
    (recordsOf position address payloads).getLast?.map Record.nextPosition
      = some (position + span payloads) := by
  induction payloads generalizing position address with
  | nil => exact absurd rfl h
  | cons x rest ih =>
    cases rest with
    | nil => simp [recordsOf, Record.nextPosition]
    | cons y rest =>
      have hlast : (recordsOf (position + x.length) (address + lengthFor x.length)
          (y :: rest)).getLast?.map Record.nextPosition
            = some (position + x.length + span (y :: rest)) := ih (by simp)
      rw [recordsOf, span_cons, List.getLast?_cons_of_ne_nil (by simp [recordsOf]), hlast]
      congr 1
      omega

end Frame

/-- An entry that marks a run lies between two records of it. -/
theorem IndexEntry.Marks.split {e : IndexEntry} {payloads : List Bytes}
    (hr : Frame.Readable 0 payloads) (hm : e.Marks (Frame.encodeRun 0 payloads))
    (hle : e.address ≤ (Frame.encodeRun 0 payloads).length) :
    ∃ before rest, payloads = before ++ rest ∧ e.address = (Frame.encodeRun 0 before).length := by
  obtain ⟨start, before, hreadable, hbytes, -⟩ := hm hle
  have hlen : (Frame.encodeRun start before).length = e.address := by
    rw [hbytes, List.length_take, Nat.min_eq_left hle]
  by_cases hnil : before = []
  · subst hnil
    exact ⟨[], payloads, rfl, by rw [← hlen]; rfl⟩
  · have hcut : Frame.encodeRun start before <+: Frame.encodeRun 0 payloads :=
      hbytes ▸ List.take_prefix ..
    have hne : payloads ≠ [] := by
      rintro rfl
      exact hnil (Frame.encodeRun_eq_nil.1 (List.prefix_nil.1 hcut))
    obtain rfl := Frame.start_eq hreadable hr hcut List.prefix_rfl hnil hne
    obtain ⟨rest, rfl⟩ := Frame.isPrefix_of_encodeRun hreadable hr hcut
    exact ⟨before, rest, rfl, hlen.symm⟩

/-- An entry that marks a place in a run and names a record is the place of a record of the run,
whatever follows the run. -/
theorem IndexEntry.Names.listed_before {e : IndexEntry} {payloads : List Bytes} {log tail : Bytes}
    (hn : e.Names log) (hlog : log = Frame.encodeRun 0 payloads ++ tail)
    (hr : Frame.Readable 0 payloads) (hm : e.Marks (Frame.encodeRun 0 payloads))
    (hlt : e.address < (Frame.encodeRun 0 payloads).length) :
    ∃ r ∈ Frame.recordsOf 0 0 payloads, r.position = e.position ∧ r.address = e.address := by
  subst hlog
  obtain ⟨r, hd, hpos⟩ := hn
  obtain ⟨before, rest, rfl, haddress⟩ := hm.split hr (Nat.le_of_lt hlt)
  have hdrop : (Frame.encodeRun 0 (before ++ rest) ++ tail).drop e.address
      = Frame.encodeRun (Frame.span before) rest ++ tail := by
    rw [Frame.encodeRun_append, haddress, List.append_assoc, List.drop_left, Int.zero_add]
  have hrest := (Frame.readable_append.1 hr).2
  rw [Int.zero_add] at hrest
  cases rest with
  | nil => simp [haddress] at hlt
  | cons x rest =>
    rw [hdrop, Frame.decode_run hrest (List.prefix_append ..)] at hd
    simp only [Except.ok.injEq, Option.some.injEq] at hd
    subst hd
    refine ⟨_, ?_, hpos, rfl⟩
    rw [Frame.recordsOf_append, haddress, Int.zero_add, Nat.zero_add]
    exact List.mem_append_right _ List.mem_cons_self

/-- An entry that marks a run and names a record is the place of a record of the run. -/
theorem IndexEntry.Names.listed {e : IndexEntry} {payloads : List Bytes}
    (hr : Frame.Readable 0 payloads) (hm : e.Marks (Frame.encodeRun 0 payloads))
    (hn : e.Names (Frame.encodeRun 0 payloads)) :
    ∃ r ∈ Frame.recordsOf 0 0 payloads, r.position = e.position ∧ r.address = e.address := by
  have hlt : e.address < (Frame.encodeRun 0 payloads).length := by
    obtain ⟨r, hd, -⟩ := hn
    apply Classical.byContradiction
    intro hge
    rw [List.drop_eq_nil_iff.2 (by omega)] at hd
    simp at hd
  exact hn.listed_before (List.append_nil _).symm hr hm hlt

/-! ## Recovering -/

namespace IndexedLog.RecoversTo

variable {log after : IndexedLog} {commit : Int} {found : Recovered} {start : Int}
  {payloads : List Bytes}

/-- In a log whose first record has position 0, the run that is found starts there. -/
theorem from_first (h : log.RecoversTo after commit found start payloads)
    (hfirst : ∀ r, Frame.decode log.storage.stored 0 = .ok (some r) → r.position = 0) :
    log.RecoversTo after commit found 0 payloads := by
  by_cases hnil : payloads = []
  · subst hnil
    exact { h with
      readable := trivial
      stored := h.stored
      bytes := h.bytes
      next := h.next
      last := h.last }
  · obtain ⟨x, rest, rfl⟩ := List.exists_cons_of_ne_nil hnil
    obtain rfl : start = 0 := hfirst _ (Frame.decode_run h.readable h.bytes 0)
    exact h

theorem next_eq_span (h : log.RecoversTo after commit found 0 payloads) :
    found.nextPosition = Frame.span payloads := by
  rw [h.next]
  by_cases hnil : payloads = []
  · subst hnil
    rfl
  · rw [Frame.next_recordsOf hnil]
    simp

end IndexedLog.RecoversTo

namespace Appender

variable {strict : Prop} {a : Appender} {payloads : List Bytes}

/-- An index that describes the log lists its records if every new entry names one. -/
theorem Kept.lists_of_names (hk : a.Kept strict payloads) (hstrict : strict)
    (hsize : a.stored.length < 2 ^ 63) {ix : BlockIndex} (hd : ix.Describes a.visible)
    (hn : ∀ e ∈ ix.entries, e ∈ a.log.index.entries ∨ e.Names a.visible) : ix.Lists payloads := by
  intro e he
  rcases hn e he with hold | hnew
  · exact hk.lists hstrict e hold
  · have hm := hd.marks e he
    rw [hk.whole hstrict] at hm hnew
    exact hnew.listed (hk.readable hsize) hm

theorem Kept.recover_error (hk : a.Kept strict payloads) (hnone : a.staleBlock = none)
    (hsize : a.stored.length < 2 ^ 63) {commit : Int} {e : LogError} {log : IndexedLog}
    (h : (IndexedLog.recover commit).run a.log = (.error e, log)) :
    ({ a with log := log } : Appender).Kept strict payloads ∧ log.storage.stored = a.stored := by
  have hvisible := visible_of_none hnone
  have hdescribes := hk.describes
  rw [hvisible] at hdescribes
  have hleft : a.log.Untouched log := IndexedLog.recover_spec hk.sound hk.unsaved hdescribes h
  have hnames := IndexedLog.recover_names hk.sound hk.unsaved h
  have hsame : ({ a with log := log } : Appender).visible = a.visible := by
    rw [hvisible]
    exact Eq.trans (visible_of_none (by exact hnone)) hleft.keeps.2
  refine ⟨?_, hleft.keeps.2⟩
  exact {
    sound := hleft.keeps.1
    unsaved := hleft.sampling ▸ hk.unsaved
    short := hk.short
    frames := hsame ▸ hk.frames
    first := hsame ▸ hk.first
    describes := by
      rw [hsame, hvisible]
      exact hleft.describes
    stale := fun address hs => absurd hs (by simp [hnone])
    fragments := hk.fragments
    whole := hsame ▸ hk.whole
    filled := hk.filled
    lists := fun hstrict => hk.lists_of_names hstrict hsize (hvisible ▸ hleft.describes)
      (hvisible ▸ hnames) }

theorem Kept.recoversTo (hk : a.Kept strict payloads) (hnone : a.staleBlock = none) {commit : Int}
    {found : Recovered} {log : IndexedLog} {start : Int} {after : List Bytes}
    (h : a.log.RecoversTo log commit found start after) :
    a.log.RecoversTo log commit found 0 after := by
  refine h.from_first fun r hd => hk.first r ?_
  rwa [visible_of_none hnone]

/-- A recovery finds the payloads that were kept, and more only where a doubled tail follows them. -/
theorem Kept.recover_ok (hk : a.Kept strict payloads) (hnone : a.staleBlock = none)
    (hsize : a.stored.length < 2 ^ 63) {commit : Int} {found : Recovered} {log : IndexedLog}
    (h : (IndexedLog.recover commit).run a.log = (.ok found, log)) :
    ∃ after, payloads <+: after ∧ (strict → after = payloads) ∧
      ({ a with log := log } : Appender).Kept strict after ∧
      log.storage.stored = Frame.encodeRun 0 after ∧ found.nextPosition = Frame.span after ∧
      log.index.Below log.storage.stored.length ∧
      found.nextPosition
        = ((Frame.walk a.stored 0).1.getLast?.map Record.nextPosition).getD 0 ∧
      ((Frame.walk a.stored 0).2 = none ∨ commit < found.nextPosition) := by
  have hvisible := visible_of_none hnone
  have hdescribes := hk.describes
  have hframes := hk.frames
  rw [hvisible] at hdescribes hframes
  obtain ⟨start, after, hstart⟩ := IndexedLog.recover_spec hk.sound hk.unsaved hdescribes h
  have hto := hk.recoversTo hnone hstart
  have hnames := IndexedLog.recover_names hk.sound hk.unsaved h
  have hwalk : (Frame.walk a.stored 0).1 = Frame.recordsOf 0 0 after := hto.walk
  have hafter : ({ a with log := log } : Appender).visible = Frame.encodeRun 0 after :=
    Eq.trans (visible_of_none (by exact hnone)) hto.stored
  have hcut : ({ a with log := log } : Appender).visible <+: a.visible := by
    rw [hafter, hvisible]
    exact hto.bytes
  -- what was kept is read before anything else
  have hmore : payloads <+: after := by
    obtain ⟨rest, hrest⟩ := hframes
    rw [← hrest, Frame.walk_encodeRun (hk.readable hsize)] at hwalk
    have hmap := congrArg (List.map Record.payload) hwalk
    rw [List.map_append, Frame.map_payload_recordsOf, Frame.map_payload_recordsOf] at hmap
    exact ⟨_, hmap⟩
  have hsame : strict → after = payloads := by
    intro hstrict
    have hall := hk.whole hstrict
    rw [hvisible] at hall
    rw [hall] at hwalk
    have hread := Frame.walk_encodeRun (hk.readable hsize) [] 0
    rw [List.append_nil] at hread
    rw [hread, Frame.walk_nil, List.append_nil] at hwalk
    have hmap := congrArg (List.map Record.payload) hwalk
    rw [Frame.map_payload_recordsOf, Frame.map_payload_recordsOf] at hmap
    exact hmap.symm
  have hnext : found.nextPosition
      = ((Frame.walk a.stored 0).1.getLast?.map Record.nextPosition).getD 0 := by
    rw [hwalk]
    exact hto.next
  refine ⟨after, hmore, hsame, ?_, hto.stored, hto.next_eq_span, hto.below, hnext, ?_⟩
  · exact {
      sound := hto.sound
      unsaved := hto.snapshotPath.trans hk.unsaved
      short := hto.readable.lengths
      frames := hafter ▸ List.prefix_rfl
      first := fun r hr => hk.first_of_isPrefix hcut hr
      describes := by
        rw [hafter, ← hto.stored]
        exact hto.describes
      stale := fun address hs => absurd hs (by simp [hnone])
      fragments := hk.fragments
      whole := fun _ => hafter
      filled := fun hstrict => hsame hstrict ▸ hk.filled hstrict
      lists := by
        intro hstrict
        rw [hsame hstrict]
        refine hk.lists_of_names hstrict hsize ?_ (hvisible ▸ hnames)
        rw [hk.whole hstrict, ← hsame hstrict, ← hto.stored]
        exact hto.describes }
  · rcases hto.cut with ⟨-, hkept⟩ | ⟨-, hcommit, -⟩
    · left
      have hread := Frame.walk_encodeRun hto.readable [] 0
      rw [List.append_nil, ← hto.stored, hkept, Frame.walk_nil] at hread
      rw [stored, hread]
    · exact .inr hcommit

/-! ## Cutting the log -/

/-- A search starts between two records. -/
theorem Settled.startFor (hk : a.Kept strict payloads) (hs : a.Settled payloads)
    (hsize : a.stored.length < 2 ^ 63) (position : Int) :
    ∃ before rest, payloads = before ++ rest ∧
      a.log.index.startFor position Storage.firstAddress = (Frame.encodeRun 0 before).length := by
  have hwhole := hs.whole
  have hbelow := hs.below
  have hdescribes := hk.describes
  rw [hwhole] at hbelow hdescribes
  unfold BlockIndex.startFor
  cases hl : a.log.index.lookup position with
  | none => exact ⟨[], payloads, rfl, rfl⟩
  | some e =>
    have he : e ∈ a.log.index.entries := (List.mem_filter.1 (List.mem_of_getLast? hl)).1
    exact (hdescribes.marks e he).split (hk.readable hsize) (Nat.le_of_lt (hbelow e he))

/-- The record that is found for a position has payloads before it that end there. -/
theorem Settled.findAddress (hk : a.Kept strict payloads) (hs : a.Settled payloads)
    (hnone : a.staleBlock = none) (hsize : a.stored.length < 2 ^ 63) {position : Int} {size : Nat}
    {r : Except LogError (Option Nat)} {rs : Reading}
    (h : (Reading.findAddress a.log.index position).run ⟨.ofWindow size, a.log.storage⟩ = (r, rs)) :
    a.log.storage.Keeps rs.storage ∧ ∀ address, r = .ok (some address) →
      ∃ kept cut, payloads = kept ++ cut ∧ Frame.span kept = position ∧
        address = (Frame.encodeRun 0 kept).length := by
  have hlog : a.log.storage.stored = Frame.encodeRun 0 payloads := by
    rw [← hs.whole, visible_of_none hnone]
    rfl
  obtain ⟨before, rest, hsplit, hstart⟩ := hs.startFor hk hsize position
  have hread := hk.readable hsize
  rw [hsplit, Frame.readable_append, Int.zero_add] at hread
  have hdrop : a.log.storage.stored.drop
      (a.log.index.startFor position Storage.firstAddress)
      = Frame.encodeRun (Frame.span before) rest := by
    rw [hlog, hsplit, hstart, Frame.encodeRun_append, List.drop_left, Int.zero_add]
  obtain ⟨hsees, hfound⟩ := Reading.findAddress_spec (Reading.Sees.ofWindow hk.sound size) hdrop
    hread.2 h
  refine ⟨⟨hsees.sound, hsees.stored⟩, fun address haddress => ?_⟩
  obtain ⟨ys, z, zs, rfl, hposition, hnext⟩ := hfound address haddress
  refine ⟨before ++ ys, z :: zs, by rw [hsplit, List.append_assoc], ?_, ?_⟩
  · rw [Frame.span_append]
    omega
  · rw [hnext, hstart, Frame.encodeRun_append, List.length_append, Int.zero_add]

theorem Kept.cut {kept cut : List Bytes} (hk : a.Kept strict (kept ++ cut))
    (hs : a.Settled (kept ++ cut)) (hnone : a.staleBlock = none) {t : Storage} (ht : t.Sound)
    (hstored : t.stored = a.stored.take (Frame.encodeRun 0 kept).length) (position : Int)
    {b : Appender} (hb : b = { a with
      log := IndexedLog.forget position (Frame.encodeRun 0 kept).length { a.log with storage := t }
      nextPosition := Frame.span kept }) :
    b.Kept strict kept ∧ b.Settled kept := by
  have hwhole := hs.whole
  have hall : b.visible = Frame.encodeRun 0 kept := by
    subst hb
    refine Eq.trans (visible_of_none (by exact hnone)) (Eq.trans hstored ?_)
    rw [visible_of_none hnone] at hwhole
    rw [hwhole, Frame.encodeRun_append, List.take_left]
  have hcut : b.visible <+: a.visible := by
    rw [hall, hwhole, Frame.encodeRun_append]
    exact List.prefix_append ..
  have hmem : ∀ e ∈ b.log.index.entries, e ∈ a.log.index.entries ∧
      e.address < (Frame.encodeRun 0 kept).length := by
    intro e he
    subst hb
    obtain ⟨he, hlt⟩ := List.mem_filter.1 he
    exact ⟨(List.mem_filter.1 he).1, by simpa using hlt⟩
  have hdescribes : b.log.index.Describes b.visible := by
    subst hb
    exact (BlockIndex.describes_restrict (BlockIndex.describes_restrict hk.describes _) _).of_isPrefix
      hcut
  constructor
  · exact {
      sound := by subst hb; exact ht
      unsaved := by subst hb; exact hk.unsaved
      short := fun x hx => hk.short x (List.mem_append_left _ hx)
      frames := hall ▸ List.prefix_rfl
      first := fun r hr => hk.first_of_isPrefix hcut hr
      describes := hdescribes
      stale := by subst hb; exact fun address h => absurd h (by simp [hnone])
      fragments := by subst hb; exact hk.fragments
      whole := fun _ => hall
      filled := fun hstrict x hx => hk.filled hstrict x (List.mem_append_left _ hx)
      lists := by
        intro hstrict e he
        obtain ⟨hold, hlt⟩ := hmem e he
        obtain ⟨r, hr, hplace⟩ := hk.lists hstrict e hold
        exact ⟨r, Frame.mem_recordsOf_of_lt hr (by omega), hplace⟩ }
  · exact {
      whole := hall
      next := by subst hb; rfl
      below := by
        intro e he
        rw [hall]
        exact (hmem e he).2 }

/-! ## Losing the end of the storage -/

theorem visible_of_isPrefix {t : Storage} (h : t.stored <+: a.stored) :
    (a.withStorage t).visible = a.visible.take t.stored.length := by
  have hcut : (a.withStorage t).stored = a.stored.take t.stored.length :=
    List.prefix_iff_eq_take.1 h
  unfold visible
  rw [hcut, show (a.withStorage t).staleBlock = a.staleBlock from rfl]
  split
  · rfl
  · rw [List.take_take, List.take_take, Nat.min_comm]

/-- The frames that are left when the end of the storage is lost are kept. -/
theorem Kept.tear {kept gone : List Bytes} (hk : a.Kept strict (kept ++ gone)) (hstrict : ¬ strict)
    {t : Storage} (ht : t.Sound) (hcut : t.stored <+: a.stored)
    (hlen : (Frame.encodeRun 0 kept).length ≤ t.stored.length) :
    (a.withStorage t).Kept strict kept := by
  have hvisible := visible_of_isPrefix hcut
  have hshorter : (a.withStorage t).visible <+: a.visible := hvisible ▸ List.take_prefix ..
  exact {
    sound := ht
    unsaved := hk.unsaved
    short := fun x hx => hk.short x (List.mem_append_left _ hx)
    frames := by
      rw [hvisible, List.prefix_take_iff]
      refine ⟨List.IsPrefix.trans ?_ hk.frames, hlen⟩
      rw [Frame.encodeRun_append]
      exact List.prefix_append ..
    first := fun r hr => hk.first_of_isPrefix hshorter hr
    describes := hk.describes.of_isPrefix hshorter
    stale := by
      intro address hstale
      obtain ⟨hrests, hbuffered⟩ := hk.stale address hstale
      refine ⟨hrests, hbuffered.of_isPrefix ?_⟩
      have hstored : (a.withStorage t).stored = a.stored.take t.stored.length :=
        List.prefix_iff_eq_take.1 hcut
      rw [hstored, List.drop_take]
      exact List.take_prefix ..
    fragments := hk.fragments
    whole := fun h => absurd h hstrict
    filled := fun h => absurd h hstrict
    lists := fun h => absurd h hstrict }

end Appender

end PartitionLog
