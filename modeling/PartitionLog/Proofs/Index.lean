import PartitionLog.BlockIndex
import PartitionLog.Proofs.Codec

/-!
# Index entries and the log they describe

An entry `Marks` a log if the bytes before its address are a run of frames that ends at its position;
an entry beyond the end of the log says nothing. `ix.Describes log`: every entry marks the log, and
the addresses increase with the positions. Both survive what is added behind the log and what is cut
off at its end, and `append` and `restrict` keep them.
-/

namespace PartitionLog

def IndexEntry.Marks (entry : IndexEntry) (log : Bytes) : Prop :=
  entry.address ≤ log.length → ∃ start payloads, Frame.Readable start payloads ∧
    Frame.encodeRun start payloads = log.take entry.address ∧
      start + Frame.span payloads = entry.position

/-- Whether a record with the entry's position can be read at its address. -/
def IndexEntry.Names (entry : IndexEntry) (log : Bytes) : Prop :=
  ∃ r, Frame.decode (log.drop entry.address) entry.address = .ok (some r) ∧
    r.position = entry.position

namespace BlockIndex

structure Describes (ix : BlockIndex) (log : Bytes) : Prop where
  marks : ∀ e ∈ ix.entries, e.Marks log
  rising : ix.entries.Pairwise (·.address < ·.address)

/-- Whether every entry lies before `address`. -/
def Below (ix : BlockIndex) (address : Nat) : Prop := ∀ e ∈ ix.entries, e.address < address

variable {ix : BlockIndex} {log : Bytes}

theorem eq_of_entries {other : BlockIndex} (h : ix.entries = other.entries) : ix = other := by
  obtain ⟨entries, _⟩ := ix
  obtain ⟨others, _⟩ := other
  dsimp only at h
  subst h
  rfl

theorem describes_restrict (h : ix.Describes log) (keep : IndexEntry → Bool) :
    (ix.restrict keep).Describes log :=
  ⟨fun e he => h.marks e ((List.mem_filter.1 he).1), h.rising.filter keep⟩

theorem below_truncateFrom (ix : BlockIndex) (address : Nat) :
    (ix.truncateFrom address).Below address := by
  intro e he
  simpa using (List.mem_filter.1 he).2

theorem Below.mono {a b : Nat} (h : ix.Below a) (hab : a ≤ b) : ix.Below b :=
  fun e he => Nat.lt_of_lt_of_le (h e he) hab

theorem marks_append {entry : IndexEntry} (h : entry.Marks log) (hle : entry.address ≤ log.length)
    (more : Bytes) : entry.Marks (log ++ more) := by
  obtain ⟨start, payloads, hr, hbytes, hpos⟩ := h hle
  exact fun _ => ⟨start, payloads, hr, by rw [List.take_append_of_le_length hle, hbytes], hpos⟩

theorem marks_of_isPrefix {entry : IndexEntry} {cut : Bytes} (h : entry.Marks log)
    (hcut : cut <+: log) : entry.Marks cut := by
  intro hle
  obtain ⟨more, rfl⟩ := hcut
  obtain ⟨start, payloads, hr, hbytes, hpos⟩ := h (by rw [List.length_append]; omega)
  exact ⟨start, payloads, hr, by rw [hbytes, List.take_append_of_le_length hle], hpos⟩

/-- What is added behind the last entry leaves the description right. -/
theorem Describes.append (h : ix.Describes log) (hb : ix.Below log.length) (more : Bytes) :
    ix.Describes (log ++ more) :=
  ⟨fun e he => marks_append (h.marks e he) (Nat.le_of_lt (hb e he)) more, h.rising⟩

theorem Describes.of_isPrefix {cut : Bytes} (h : ix.Describes log) (hcut : cut <+: log) :
    ix.Describes cut :=
  ⟨fun e he => marks_of_isPrefix (h.marks e he) hcut, h.rising⟩

theorem entries_append {position : Int} {address : Nat} {after : BlockIndex}
    (h : ix.append position address = .ok after) :
    after.entries = ix.entries ++ [⟨position, address⟩] ∧
      Follows ix.entries ⟨position, address⟩ := by
  unfold BlockIndex.append at h
  split at h
  · next hf =>
    simp only [Except.ok.injEq] at h
    subst h
    exact ⟨rfl, hf⟩
  · simp at h

theorem last?_of_append {position : Int} {address : Nat} {after : BlockIndex}
    (h : ix.append position address = .ok after) : after.last? = some ⟨position, address⟩ := by
  rw [last?, (entries_append h).1, List.getLast?_concat]

/-- An entry is refused if it does not lie beyond the last one. -/
theorem last_of_refused {position : Int} {address : Nat} {e : LogError}
    (h : ix.append position address = .error e) :
    ∃ last, ix.last? = some last ∧ ¬ (last.position < position ∧ last.address < address) := by
  unfold BlockIndex.append at h
  split at h
  · simp at h
  · next hf =>
    unfold Follows at hf
    simp only [Option.mem_def, Classical.not_forall] at hf
    obtain ⟨last, hlast, hnot⟩ := hf
    exact ⟨last, hlast, hnot⟩

/-- In an ordered list every element comes before the last one, or is the last one. -/
theorem rel_last {α : Type} {R : α → α → Prop} {xs : List α} {x last : α} (h : xs.Pairwise R)
    (hx : x ∈ xs) (hl : xs.getLast? = some last) : R x last ∨ x = last := by
  obtain ⟨front, rfl⟩ := List.getLast?_eq_some_iff.1 hl
  rcases List.mem_append.1 hx with hm | hm
  · exact .inl ((List.pairwise_append.1 h).2.2 x hm last (by simp))
  · exact .inr (List.mem_singleton.1 hm)

/-- Of an ordered list a filter keeps the front, if with every element it keeps those before it. -/
theorem filter_isPrefix {α : Type} {p : α → Bool} {xs : List α}
    (h : xs.Pairwise fun x y => p y = true → p x = true) : xs.filter p <+: xs := by
  induction xs with
  | nil => exact List.prefix_rfl
  | cons x rest ih =>
    obtain ⟨hx, hrest⟩ := List.pairwise_cons.1 h
    by_cases hp : p x = true
    · rw [List.filter_cons_of_pos hp]
      exact (List.prefix_cons_inj x).2 (ih hrest)
    · rw [List.filter_eq_nil_iff.2 fun y hy => ?_]
      · exact List.nil_prefix
      · rcases List.mem_cons.1 hy with rfl | hy
        · exact hp
        · exact fun hpy => hp (hx y hy hpy)

/-- With rising addresses, what follows the last entry follows all. -/
theorem rising_append {entries : List IndexEntry} {entry : IndexEntry}
    (h : entries.Pairwise (·.address < ·.address)) (hf : Follows entries entry) :
    (entries ++ [entry]).Pairwise (·.address < ·.address) := by
  refine List.pairwise_append.2 ⟨h, List.pairwise_singleton .., fun e he f hf' => ?_⟩
  obtain rfl := List.mem_singleton.1 hf'
  have hl := List.getLast?_eq_some_getLast (List.ne_nil_of_mem he)
  have hlast := (hf _ hl).2
  rcases rel_last h he hl with hlt | heq
  · exact Nat.lt_trans hlt hlast
  · rw [heq]
    exact hlast

theorem describes_append {position : Int} {address : Nat} {after : BlockIndex}
    (h : ix.Describes log) (hm : IndexEntry.Marks ⟨position, address⟩ log)
    (ha : ix.append position address = .ok after) : after.Describes log := by
  obtain ⟨hentries, hf⟩ := entries_append ha
  refine ⟨fun e he => ?_, ?_⟩
  · rw [hentries] at he
    rcases List.mem_append.1 he with he | he
    · exact h.marks e he
    · obtain rfl := List.mem_singleton.1 he
      exact hm
  · rw [hentries]
    exact rising_append h.rising hf

theorem below_append {position : Int} {address limit : Nat} {after : BlockIndex}
    (h : ix.Below limit) (hlt : address < limit) (ha : ix.append position address = .ok after) :
    after.Below limit := by
  intro e he
  rw [(entries_append ha).1] at he
  rcases List.mem_append.1 he with he | he
  · exact h e he
  · obtain rfl := List.mem_singleton.1 he
    exact hlt

/-- The last entry has the greatest position of all. -/
theorem position_le_last {e last : IndexEntry} (he : e ∈ ix.entries) (hl : ix.last? = some last) :
    e.position ≤ last.position := by
  rcases rel_last ix.sorted he hl with hlt | rfl
  · exact Int.le_of_lt hlt
  · exact Int.le_refl _

theorem below_last {last : IndexEntry} (h : ix.Describes log) (hl : ix.last? = some last) :
    ix.Below (last.address + 1) := by
  intro e he
  rcases rel_last h.rising he hl with hlt | rfl
  · exact Nat.lt_succ_of_lt hlt
  · exact Nat.lt_succ_self _

end BlockIndex

end PartitionLog
