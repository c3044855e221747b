import PartitionLog.Attempt
import PartitionLog.Bytes

/-!
# The block index

A sparse map from record positions to storage addresses, for finding a place to start scanning.
Entries are sorted by position. `append` takes only an entry beyond the last one in position and
address; `lookup` is the floor: the entry with the greatest position that is not above the one
looked for.
-/

namespace PartitionLog

structure IndexEntry where
  position : Int
  address : Nat
  deriving DecidableEq, Repr

structure BlockIndex where
  entries : List IndexEntry := []
  sorted : entries.Pairwise (·.position < ·.position) := by simp
  deriving DecidableEq, Repr

namespace BlockIndex

def empty : BlockIndex := {}

def last? (ix : BlockIndex) : Option IndexEntry := ix.entries.getLast?

def isEmpty (ix : BlockIndex) : Bool := ix.entries.isEmpty

def size (ix : BlockIndex) : Nat := ix.entries.length

/-- Whether `entry` lies beyond all entries of a sorted list, as far as its last one shows. -/
def Follows (entries : List IndexEntry) (entry : IndexEntry) : Prop :=
  ∀ last ∈ entries.getLast?, last.position < entry.position ∧ last.address < entry.address

instance (entries : List IndexEntry) (entry : IndexEntry) : Decidable (Follows entries entry) := by
  unfold Follows; infer_instance

theorem sorted_append {entries : List IndexEntry} {entry : IndexEntry}
    (h : entries.Pairwise (·.position < ·.position)) (hf : Follows entries entry) :
    (entries ++ [entry]).Pairwise (·.position < ·.position) := by
  rw [List.pairwise_append]
  refine ⟨h, by simp, fun a ha b hb => ?_⟩
  obtain rfl := List.mem_singleton.1 hb
  have hne := List.ne_nil_of_mem ha
  have hlast : (entries.getLast hne).position < b.position :=
    (hf _ (by simp [List.getLast?_eq_some_getLast hne])).1
  rw [← List.dropLast_concat_getLast hne] at h ha
  rcases List.mem_append.1 ha with hm | hm
  · exact Int.lt_trans ((List.pairwise_append.1 h).2.2 a hm _ (by simp)) hlast
  · obtain rfl := List.mem_singleton.1 hm; exact hlast

/-- Add an entry for a block that was written. -/
def append (ix : BlockIndex) (position : Int) (address : Nat) : Except LogError BlockIndex :=
  if h : Follows ix.entries ⟨position, address⟩ then
    .ok ⟨ix.entries ++ [⟨position, address⟩], sorted_append ix.sorted h⟩
  else
    let last := ix.last?.getD ⟨position, address⟩
    .error (.invalidArgument (.entryOutOfOrder position address last.position last.address))

/-- The last entry at or below `position`. -/
def lookup (ix : BlockIndex) (position : Int) : Option IndexEntry :=
  (ix.entries.filter (·.position ≤ position)).getLast?

/-- Where to start scanning for `position`. -/
def startFor (ix : BlockIndex) (position : Int) (first : Nat) : Nat :=
  ((ix.lookup position).map (·.address)).getD first

/-- Where to start scanning for the end of the log. -/
def lastStart (ix : BlockIndex) (first : Nat) : Nat := (ix.last?.map (·.address)).getD first

/-- Forget all entries. -/
def clear (_ : BlockIndex) : BlockIndex := empty

def restrict (ix : BlockIndex) (keep : IndexEntry → Bool) : BlockIndex :=
  ⟨ix.entries.filter keep, ix.sorted.filter keep⟩

/-- Keep the entries up to `position`. -/
def truncateAfter (ix : BlockIndex) (position : Int) : BlockIndex :=
  ix.restrict (·.position ≤ position)

/-- Keep the entries before `address`. -/
def truncateFrom (ix : BlockIndex) (address : Nat) : BlockIndex :=
  ix.restrict (·.address < address)

@[simp] theorem entries_restrict (ix : BlockIndex) (keep : IndexEntry → Bool) :
    (ix.restrict keep).entries = ix.entries.filter keep := rfl

/-! ## Placing an entry anywhere -/

/-- Put an entry where its position belongs, over an entry with that position. -/
def place (entry : IndexEntry) : List IndexEntry → List IndexEntry
  | [] => [entry]
  | e :: rest =>
    if entry.position < e.position then entry :: e :: rest
    else if entry.position = e.position then entry :: rest
    else e :: place entry rest

theorem mem_place {entry e : IndexEntry} {entries : List IndexEntry} (h : e ∈ place entry entries) :
    e = entry ∨ e ∈ entries := by
  induction entries with
  | nil => simpa [place] using h
  | cons x rest ih =>
    unfold place at h
    split at h
    · simpa using h
    · split at h
      · rcases List.mem_cons.1 h with rfl | h
        · exact .inl rfl
        · exact .inr (List.mem_cons_of_mem _ h)
      · rcases List.mem_cons.1 h with rfl | h
        · exact .inr (List.mem_cons_self ..)
        · exact (ih h).imp_right (List.mem_cons_of_mem _)

theorem sorted_place {entry : IndexEntry} {entries : List IndexEntry}
    (h : entries.Pairwise (·.position < ·.position)) :
    (place entry entries).Pairwise (·.position < ·.position) := by
  induction entries with
  | nil => simp [place]
  | cons x rest ih =>
    obtain ⟨hx, hr⟩ := List.pairwise_cons.1 h
    unfold place
    split
    · rename_i hlt
      refine List.pairwise_cons.2 ⟨fun e he => ?_, h⟩
      rcases List.mem_cons.1 he with rfl | he
      · exact hlt
      · exact Int.lt_trans hlt (hx e he)
    · split
      · rename_i heq
        exact List.pairwise_cons.2 ⟨fun e he => heq ▸ hx e he, hr⟩
      · rename_i hnlt hne
        refine List.pairwise_cons.2 ⟨fun e he => ?_, ih hr⟩
        rcases mem_place he with rfl | he
        · omega
        · exact hx e he

def insert (ix : BlockIndex) (entry : IndexEntry) : BlockIndex :=
  ⟨place entry ix.entries, sorted_place ix.sorted⟩

/-- The index of some entries, the later of two with one position winning. -/
def ofList (entries : List IndexEntry) : BlockIndex := entries.foldl insert empty

end BlockIndex

end PartitionLog
