import Mathlib.Logic.Basic

/-!
# Looking up entries

What is found in a list of entries, each under its key, once one is put in front or those of a key
are dropped.
-/

namespace PartitionLog

variable {κ ν : Type} [BEq κ] [LawfulBEq κ] [DecidableEq κ]

theorem lookup_cons (key : κ) (value : ν) (entries : List (κ × ν)) (other : κ) :
    ((key, value) :: entries).lookup other
      = if other = key then some value else entries.lookup other := by
  rw [List.lookup_cons]
  by_cases h : other = key
  · simp [h]
  · rw [if_neg h, beq_false_of_ne h]

theorem lookup_filter (entries : List (κ × ν)) (key other : κ) :
    (entries.filter (·.1 != key)).lookup other
      = if other = key then none else entries.lookup other := by
  induction entries with
  | nil => simp
  | cons e rest ih =>
    obtain ⟨name, value⟩ := e
    by_cases he : name = key
    · rw [List.filter_cons_of_neg (by simpa using he), ih, lookup_cons]
      by_cases h : other = key
      · simp [h]
      · simp [h, he]
    · rw [List.filter_cons_of_pos (by simpa using he), lookup_cons, lookup_cons, ih]
      by_cases h : other = name
      · simp [h, he]
      · simp [h]

end PartitionLog
