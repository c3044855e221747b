import Mathlib.Data.List.Pairwise
import PartitionLog.Proofs.Index

/-!
# The index as a sorted floor map

Anyone may edit an index, with any positions and addresses of 64 bits; an entry that is refused
changes nothing. Entries are kept by position, and nothing but the order in which they were added
makes the addresses rise along with the positions. Every edit keeps that (`Rising.edit`), so a cut
by address leaves a prefix just as one by position does, and the last entry stands for all:
whatever the edits were, the index is a sorted floor map (`edited_floorMap`).
-/

namespace PartitionLog.BlockIndex

inductive Edit where
  | append (position : Int64) (address : UInt64)
  | truncateAfter (position : Int64)
  | truncateFrom (address : UInt64)
  | clear

def edit (ix : BlockIndex) : Edit → BlockIndex
  | .append position address =>
    match ix.append position.toInt address.toNat with
    | .ok next => next
    | .error _ => ix
  | .truncateAfter position => ix.truncateAfter position.toInt
  | .truncateFrom address => ix.truncateFrom address.toNat
  | .clear => ix.clear

/-- An empty index after some edits. -/
def edited (edits : List Edit) : BlockIndex := edits.foldl edit empty

variable {ix after : BlockIndex} {position : Int} {address : Nat}

/-! ## What every edit keeps -/

/-- The addresses rise with the positions, and no position is beyond the greatest of 64 bits. -/
structure Rising (ix : BlockIndex) : Prop where
  addresses : ix.entries.Pairwise (·.address < ·.address)
  within : ∀ e ∈ ix.entries, e.position ≤ Int64.maxValue.toInt

theorem rising_empty : empty.Rising := ⟨.nil, by simp [empty]⟩

theorem Rising.append (h : ix.Rising) (hle : position ≤ Int64.maxValue.toInt)
    (ha : ix.append position address = .ok after) : after.Rising := by
  obtain ⟨hentries, hfollows⟩ := entries_append ha
  constructor
  · rw [hentries]
    exact rising_append h.addresses hfollows
  · intro e he
    rw [hentries] at he
    rcases List.mem_append.1 he with he | he
    · exact h.within e he
    · obtain rfl := List.mem_singleton.1 he
      exact hle

theorem Rising.restrict (h : ix.Rising) (keep : IndexEntry → Bool) : (ix.restrict keep).Rising :=
  ⟨h.addresses.filter keep, fun e he => h.within e (List.mem_filter.1 he).1⟩

theorem Rising.edit (h : ix.Rising) (edit : Edit) : (ix.edit edit).Rising := by
  cases edit with
  | append position address =>
    unfold BlockIndex.edit
    dsimp only
    split
    · next ha => exact h.append position.toInt_le ha
    · exact h
  | truncateAfter position => exact h.restrict _
  | truncateFrom address => exact h.restrict _
  | clear => exact rising_empty

theorem Rising.foldl (h : ix.Rising) (edits : List Edit) :
    (edits.foldl BlockIndex.edit ix).Rising := by
  induction edits generalizing ix with
  | nil => exact h
  | cons edit rest ih => exact ih (h.edit edit)

/-! ## Adding, cutting and looking up -/

/-- What is refused does not follow the last entry, and the error names both. -/
theorem append_refused (hf : ¬ Follows ix.entries ⟨position, address⟩) :
    ∃ last ∈ ix.last?, ix.append position address
      = .error
        (.invalidArgument (.entryOutOfOrder position address last.position last.address)) := by
  unfold BlockIndex.append
  rw [dif_neg hf]
  cases hlast : ix.last? with
  | none =>
    rw [last?] at hlast
    exact absurd (by simp [Follows, hlast]) hf
  | some last => exact ⟨last, rfl, rfl⟩

/-- A position that is not above the last entry of a sorted index, or an address, is refused. -/
theorem append_ok_iff :
    (∃ next, ix.append position address = .ok next) ↔
      ∀ last ∈ ix.last?, last.position < position ∧ last.address < address := by
  constructor
  · rintro ⟨next, hok⟩
    exact (entries_append hok).2
  · intro hf
    exact ⟨_, dif_pos hf⟩

theorem edit_append_refused {p : Int64} {a : UInt64}
    (h : ¬ ∃ next, ix.append p.toInt a.toNat = .ok next) : ix.edit (.append p a) = ix := by
  unfold BlockIndex.edit
  dsimp only
  split
  · next hok => exact absurd ⟨_, hok⟩ h
  · rfl

theorem mem_truncateAfter {e : IndexEntry} :
    e ∈ (ix.truncateAfter position).entries ↔ e ∈ ix.entries ∧ e.position ≤ position := by
  simp only [truncateAfter, entries_restrict, List.mem_filter, decide_eq_true_eq]

theorem mem_truncateFrom {e : IndexEntry} :
    e ∈ (ix.truncateFrom address).entries ↔ e ∈ ix.entries ∧ e.address < address := by
  simp only [truncateFrom, entries_restrict, List.mem_filter, decide_eq_true_eq]

theorem truncateAfter_isPrefix (ix : BlockIndex) (position : Int) :
    (ix.truncateAfter position).entries <+: ix.entries := by
  refine filter_isPrefix (ix.sorted.imp fun {d e} hlt hkept => ?_)
  simp only [decide_eq_true_eq] at hkept ⊢
  omega

theorem Rising.truncateFrom_isPrefix (h : ix.Rising) (address : Nat) :
    (ix.truncateFrom address).entries <+: ix.entries := by
  refine filter_isPrefix (h.addresses.imp fun {d e} hlt hkept => ?_)
  simp only [decide_eq_true_eq] at hkept ⊢
  omega

/-- Nothing lies behind the greatest position. -/
theorem Rising.truncateAfter_greatest (h : ix.Rising) :
    (ix.truncateAfter Int64.maxValue.toInt).entries = ix.entries :=
  List.filter_eq_self.2 fun e he => decide_eq_true (h.within e he)

/-- No two entries have one position. -/
theorem eq_of_position {d e : IndexEntry} (hd : d ∈ ix.entries) (he : e ∈ ix.entries)
    (h : d.position = e.position) : d = e := by
  apply Classical.byContradiction
  intro hne
  have hdistinct : ix.entries.Pairwise fun d e => d.position ≠ e.position :=
    ix.sorted.imp Int.ne_of_lt
  have : Std.Symm fun d e : IndexEntry => d.position ≠ e.position := ⟨fun _ _ => Ne.symm⟩
  exact hdistinct.forall hd he hne h

theorem lookup_eq_none_iff :
    ix.lookup position = none ↔ ∀ e ∈ ix.entries, ¬ e.position ≤ position := by
  unfold lookup
  rw [List.getLast?_eq_none_iff, List.filter_eq_nil_iff]
  simp only [decide_eq_true_eq]

/-- The entry that is found has the greatest position of those that are not above. -/
theorem lookup_eq_some_iff {e : IndexEntry} :
    ix.lookup position = some e ↔ e ∈ ix.entries ∧ e.position ≤ position ∧
      ∀ d ∈ ix.entries, d.position ≤ position → d.position ≤ e.position := by
  have hgreatest : ∀ {e}, ix.lookup position = some e → e ∈ ix.entries ∧ e.position ≤ position ∧
      ∀ d ∈ ix.entries, d.position ≤ position → d.position ≤ e.position := by
    intro e hl
    have hmem := mem_truncateAfter.1 (List.mem_of_getLast? hl)
    exact ⟨hmem.1, hmem.2, fun d hd hle =>
      (ix.truncateAfter position).position_le_last (mem_truncateAfter.2 ⟨hd, hle⟩) hl⟩
  constructor
  · exact hgreatest
  · rintro ⟨hmem, hle, hmax⟩
    cases hl : ix.lookup position with
    | none => exact absurd hle (lookup_eq_none_iff.1 hl e hmem)
    | some d =>
      obtain ⟨hd, hdle, hdmax⟩ := hgreatest hl
      have hsame : d.position = e.position := Int.le_antisymm (hmax d hd hdle) (hdmax e hmem hle)
      exact congrArg some (eq_of_position hd hmem hsame)

/-! ## Any edits -/

/-- What a sorted floor map answers, and what the next edit makes of it. -/
structure FloorMap (ix : BlockIndex) : Prop where
  rising : ix.entries.Pairwise fun d e => d.position < e.position ∧ d.address < e.address
  takes : ∀ (position : Int64) (address : UInt64),
    (∃ next, ix.append position.toInt address.toNat = .ok next) ↔
      ∀ last ∈ ix.last?, last.position < position.toInt ∧ last.address < address.toNat
  taken : ∀ (position : Int64) (address : UInt64) next,
    ix.append position.toInt address.toNat = .ok next →
      ix.edit (.append position address) = next ∧
        next.entries = ix.entries ++ [⟨position.toInt, address.toNat⟩]
  refused : ∀ (position : Int64) (address : UInt64) e,
    ix.append position.toInt address.toNat = .error e →
      ix.edit (.append position address) = ix ∧ e.kind = .invalidArgument
  cutAfter : ∀ position : Int64,
    (ix.edit (.truncateAfter position)).entries <+: ix.entries ∧
      ∀ e, e ∈ (ix.edit (.truncateAfter position)).entries ↔
        e ∈ ix.entries ∧ e.position ≤ position.toInt
  cutNowhere : ix.edit (.truncateAfter Int64.maxValue) = ix
  cutFrom : ∀ address : UInt64,
    (ix.edit (.truncateFrom address)).entries <+: ix.entries ∧
      ∀ e, e ∈ (ix.edit (.truncateFrom address)).entries ↔
        e ∈ ix.entries ∧ e.address < address.toNat
  cleared : (ix.edit .clear).entries = []
  floor : ∀ (position : Int64) e, ix.lookup position.toInt = some e ↔
    e ∈ ix.entries ∧ e.position ≤ position.toInt ∧
      ∀ d ∈ ix.entries, d.position ≤ position.toInt → d.position ≤ e.position
  beforeFirst : ∀ position : Int64, ix.lookup position.toInt = none ↔
    ∀ e ∈ ix.entries, ¬ e.position ≤ position.toInt

theorem Rising.floorMap (h : ix.Rising) : ix.FloorMap where
  rising := ix.sorted.and h.addresses
  takes _ _ := append_ok_iff
  taken position address next hok := by
    refine ⟨?_, (entries_append hok).1⟩
    rw [BlockIndex.edit, hok]
  refused position address e he := by
    have hno : ¬ ∃ next, ix.append position.toInt address.toNat = .ok next := by
      rintro ⟨next, hok⟩
      simp [he] at hok
    have hf : ¬ Follows ix.entries ⟨position.toInt, address.toNat⟩ := mt append_ok_iff.2 hno
    obtain ⟨last, -, herror⟩ := append_refused hf
    rw [he, Except.error.injEq] at herror
    exact ⟨edit_append_refused hno, herror ▸ rfl⟩
  cutAfter position := ⟨ix.truncateAfter_isPrefix position.toInt, fun _ => mem_truncateAfter⟩
  cutNowhere := eq_of_entries h.truncateAfter_greatest
  cutFrom address := ⟨h.truncateFrom_isPrefix address.toNat, fun _ => mem_truncateFrom⟩
  cleared := rfl
  floor _ _ := lookup_eq_some_iff
  beforeFirst _ := lookup_eq_none_iff

/-- Whatever edits were made to an empty index, it is a sorted floor map. -/
theorem edited_floorMap (edits : List Edit) : (edited edits).FloorMap :=
  (rising_empty.foldl edits).floorMap

/-- A cut by address drops the last entry, a refused one is not there, and the floor of 6 is 3. -/
example :
    (edited [.append 0 0, .append 3 19, .append 9 30, .append 12 30, .truncateFrom 30]).lookup 6
    = some ⟨3, 19⟩ := by decide

end PartitionLog.BlockIndex
