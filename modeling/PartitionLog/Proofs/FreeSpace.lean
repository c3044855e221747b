import PartitionLog.Proofs.Traffic

/-!
# Free space in the ring

A byte of the ring is `Free` if no slot has it, and a `FreeRun` is free bytes in a row that end before
the end of the ring. `reserve` looks at no byte: it adds up what is used, the padding and the frame.
`Ring.room_iff` says that the sum fits exactly if there is a free run for the frame, at the tail or,
where all is free up to the end of the ring, at its beginning (`HasSpace`). The bytes between the head
and the tail, taken modulo the capacity, are those of the slots (`Ring.occupied_iff`); one turn behind
the head the ring is occupied again, which is where a free run that starts at the tail ends
(`Ring.freeRun_iff`). So claims fail exactly for want of such a run (`claims_by_free_space`).
-/

namespace PartitionLog

/-- Bytes that some slots take up belong to one of them. -/
theorem exists_slot_of_lt {slots : List Slot} {k : Nat} (h : k < reservedBy slots) :
    ∃ i, ∃ hi : i < slots.length, reservedBy (slots.take i) ≤ k ∧
      k < reservedBy (slots.take i) + slots[i].reserved := by
  induction slots generalizing k with
  | nil => exact absurd h (Nat.not_lt_zero k)
  | cons s rest ih =>
    rw [reservedBy_cons] at h
    by_cases hfirst : k < s.reserved
    · exact ⟨0, Nat.zero_lt_succ _, Nat.zero_le k, by simpa using hfirst⟩
    · obtain ⟨i, hi, hlo, hhi⟩ := ih (show k - s.reserved < reservedBy rest by omega)
      refine ⟨i + 1, Nat.succ_lt_succ hi, ?_, ?_⟩
      · rw [List.take_succ_cons, reservedBy_cons]
        omega
      · rw [List.take_succ_cons, reservedBy_cons, List.getElem_cons_succ]
        omega

namespace WriteBuffer

instance (b : WriteBuffer) (i byte : Nat) : Decidable (b.Occupies i byte) := by
  unfold Occupies; infer_instance

/-- No slot has the byte. -/
def Free (b : WriteBuffer) (byte : Nat) : Prop :=
  ∀ i < b.slots.length, ¬ b.Occupies i byte

instance (b : WriteBuffer) (byte : Nat) : Decidable (b.Free byte) := by
  unfold Free; infer_instance

/-- The bytes from `first` on are free, and end before the end of the ring. -/
def FreeRun (b : WriteBuffer) (first length : Nat) : Prop :=
  first + length ≤ b.capacity ∧ ∀ k < length, b.Free (first + k)

instance (b : WriteBuffer) (first length : Nat) : Decidable (b.FreeRun first length) := by
  unfold FreeRun; infer_instance

/-- Free bytes in a row at the tail, or at the beginning of the ring behind free bytes up to its
end. -/
def HasSpace (b : WriteBuffer) (length : Nat) : Prop :=
  b.FreeRun (b.physical b.tail) length ∨
    b.FreeRun (b.physical b.tail) (b.capacity - b.physical b.tail) ∧ b.FreeRun 0 length

instance (b : WriteBuffer) (length : Nat) : Decidable (b.HasSpace length) := by
  unfold HasSpace; infer_instance

variable {b after : WriteBuffer}

/-! ## What the slots leave free -/

theorem physical_add {x d : Nat} (h : b.physical x + d < b.capacity) :
    b.physical (x + d) = b.physical x + d := by
  have hd : d % b.capacity = d := Nat.mod_eq_of_lt (by omega)
  unfold physical at h ⊢
  rw [Nat.add_mod, hd, Nat.mod_eq_of_lt h]

/-- The slots have the bytes of all places between head and tail, and no others. -/
theorem Ring.occupied_iff (h : b.Ring) {byte : Nat} :
    (∃ i, b.Occupies i byte) ↔ ∃ place, b.head ≤ place ∧ place < b.tail ∧ b.physical place = byte := by
  constructor
  · rintro ⟨i, hi, hlo, hhi⟩
    obtain ⟨place, hfrom, hto, hplace⟩ := exists_logical hlo hhi (h.whole i hi)
    have hend := reservedBy_take_le b.slots (show i + 1 ≤ b.slots.length by omega)
    rw [reservedBy_take_succ hi, List.take_length] at hend
    have htail := h.spans
    unfold offsetOf at hfrom hto
    exact ⟨place, by omega, by omega, hplace⟩
  · rintro ⟨place, hhead, htail, rfl⟩
    have hspans := h.spans
    obtain ⟨i, hi, hlo, hhi⟩ :=
      exists_slot_of_lt (show place - b.head < reservedBy b.slots by omega)
    have hplace : place = b.offsetOf i + (place - b.offsetOf i) := by
      unfold offsetOf
      omega
    have hwithin : place - b.offsetOf i < b.slots[i].reserved := by
      unfold offsetOf
      omega
    have hwhole := h.whole i hi
    refine ⟨i, hi, ?_⟩
    rw [hplace, physical_add (by omega)]
    omega

/-- From the tail on the ring is free for the rest of one turn. -/
theorem Ring.free_behind (h : b.Ring) {place : Nat} (htail : b.tail ≤ place)
    (hturn : place < b.head + b.capacity) : b.Free (b.physical place) := by
  intro i _ hoccupied
  obtain ⟨other, hhead, hlt, hsame⟩ := h.occupied_iff.1 ⟨i, hoccupied⟩
  exact mod_ne_of_lt (show other < place by omega) (by omega) hsame

/-- One turn behind the head the first slot comes again. -/
theorem Ring.not_free_turn (h : b.Ring) (hne : b.slots ≠ []) :
    ¬ b.Free (b.physical (b.head + b.capacity)) := by
  intro hfree
  have hused : b.used ≠ 0 := fun hzero => hne (h.slots_eq_nil hzero)
  have hsame : b.physical b.head = b.physical (b.head + b.capacity) :=
    (Nat.add_mod_right b.head b.capacity).symm
  have hlt : b.head < b.tail := by
    unfold used at hused
    omega
  obtain ⟨i, hi, hoccupied⟩ := h.occupied_iff.2 ⟨b.head, Nat.le_refl _, hlt, hsame⟩
  exact hfree i hi ⟨hi, hoccupied⟩

/-- A run that starts behind the tail is free exactly if it ends within one turn from the head. -/
theorem Ring.freeRun_iff (h : b.Ring) (hne : b.slots ≠ []) {place length : Nat}
    (htail : b.tail ≤ place) (hturn : place ≤ b.head + b.capacity)
    (hinside : b.physical place + length ≤ b.capacity) :
    b.FreeRun (b.physical place) length ↔ place + length ≤ b.head + b.capacity := by
  constructor
  · rintro ⟨-, hfree⟩
    by_contra hpast
    have hend := hfree (b.head + b.capacity - place) (by omega)
    rw [← physical_add (by omega), Nat.add_sub_cancel' hturn] at hend
    exact h.not_free_turn hne hend
  · intro hend
    refine ⟨hinside, fun k hk => ?_⟩
    rw [← physical_add (by omega)]
    exact h.free_behind (by omega) (by omega)

/-! ## What is granted -/

/-- What is used, the padding and the frame fit into the ring together exactly if there is a free run
for the frame. -/
theorem Ring.room_iff (h : b.Ring) (hne : b.slots ≠ []) (length : Nat) :
    b.used + b.paddingFor length + length ≤ b.capacity ↔ b.HasSpace length := by
  have hfits : b.tail ≤ b.head + b.capacity := by
    rw [h.spans]
    exact Nat.add_le_add_left h.fits _
  have hused : b.tail = b.head + b.used := by rw [h.used_eq, h.spans]
  have hphysical : b.physical b.tail < b.capacity := Nat.mod_lt _ h.room
  have hend := h.freeRun_iff hne (Nat.le_refl _) hfits
    (show b.physical b.tail + (b.capacity - b.physical b.tail) ≤ b.capacity by omega)
  have hbegin : b.tail + (b.capacity - b.physical b.tail) ≤ b.head + b.capacity →
      length ≤ b.capacity → (b.FreeRun 0 length ↔
        b.tail + (b.capacity - b.physical b.tail) + length ≤ b.head + b.capacity) := by
    intro hturn hlength
    have hzero : b.physical (b.tail + (b.capacity - b.physical b.tail)) = 0 :=
      physical_padded h.room
    have := h.freeRun_iff hne (show b.tail ≤ b.tail + (b.capacity - b.physical b.tail) by omega)
      hturn (by rw [hzero]; omega : _ + length ≤ b.capacity)
    rwa [hzero] at this
  unfold paddingFor HasSpace
  by_cases hpast : b.capacity < b.physical b.tail + length
  · -- the frame does not go before the end of the ring
    rw [if_pos hpast]
    constructor
    · intro hroom
      exact .inr ⟨hend.2 (by omega), (hbegin (by omega) (by omega)).2 (by omega)⟩
    · rintro (⟨hinside, -⟩ | ⟨hrest, hrun⟩)
      · omega
      · have hrest := hend.1 hrest
        have := (hbegin hrest (by have := hrun.1; omega)).1 hrun
        omega
  · rw [if_neg hpast]
    have htail := h.freeRun_iff hne (Nat.le_refl _) hfits
      (show b.physical b.tail + length ≤ b.capacity by omega)
    constructor
    · intro hroom
      exact .inl (htail.2 (by omega))
    · rintro (hrun | ⟨hrest, hrun⟩)
      · have := htail.1 hrun
        omega
      · -- a frame that could start at the beginning of the ring could as well start at the tail
        have hrest := hend.1 hrest
        have := (hbegin hrest (by omega)).1 hrun
        omega

theorem used_restart {length : Nat} (hused : b.used = 0) : (b.restart length).used = 0 := by
  unfold restart used at *
  rw [if_pos hused]
  dsimp only
  omega

/-- An empty ring is restarted so that every frame that is not longer than the ring fits. -/
theorem paddingFor_restart {length : Nat} (hroom : 0 < b.capacity) (hlength : length ≤ b.capacity)
    (hused : b.used = 0) : (b.restart length).paddingFor length = 0 := by
  unfold restart
  rw [if_pos hused]
  by_cases hpast : b.capacity < b.physical b.tail + length
  · have hzero : (b.tail + (b.capacity - b.physical b.tail)) % b.capacity = 0 :=
      physical_padded hroom
    have hpadding : b.paddingFor length = b.capacity - b.physical b.tail := if_pos hpast
    refine if_neg ?_
    dsimp only [physical]
    rw [hpadding, hzero]
    omega
  · have hpadding : b.paddingFor length = 0 := if_neg hpast
    rw [hpadding]
    exact if_neg hpast

/-- Space is granted exactly where there is some, and refused without a trace. -/
theorem Ring.reserve_iff (h : b.Ring) {length : Nat} (hlength : length ≤ b.capacity) :
    ((∃ place after, (reserve length).run b = (.ok place, after)) ↔ b.slots = [] ∨ b.HasSpace length)
      ∧ ∀ e after, (reserve length).run b = (.error e, after) →
        e = .backpressure length (b.capacity - b.used) ∧ after = b := by
  have hcapacity := (restart_terms b length).capacity
  have hdecides : (b.restart length).capacity
        < (b.restart length).used + (b.restart length).paddingFor length + length ↔
      ¬ (b.slots = [] ∨ b.HasSpace length) := by
    by_cases hempty : b.slots = []
    · have hused : b.used = 0 := by rw [h.used_eq, hempty, reservedBy_nil]
      have hrestarted : (b.restart length).used = 0 := used_restart hused
      have hpadding := paddingFor_restart h.room hlength hused
      rw [hcapacity]
      constructor
      · intro hfull
        omega
      · intro hnot
        exact absurd (.inl hempty) hnot
    · rw [(h.restart length).2 hempty, ← h.room_iff hempty]
      constructor
      · rintro hfull (hnil | hroom)
        · exact hempty hnil
        · omega
      · intro hnot
        by_contra hroom
        exact hnot (.inr (by omega))
  unfold Attempt.run reserve
  dsimp only
  by_cases hfull : (b.restart length).capacity
      < (b.restart length).used + (b.restart length).paddingFor length + length
  · rw [if_pos hfull]
    have hnot := hdecides.1 hfull
    have hsame : b.restart length = b := (h.restart length).2 fun hnil => hnot (.inl hnil)
    constructor
    · constructor
      · rintro ⟨place, after, hbad⟩
        simp at hbad
      · intro hspace
        exact absurd hspace hnot
    · intro e after hrun
      simp only [Prod.mk.injEq, Except.error.injEq] at hrun
      obtain ⟨rfl, rfl⟩ := hrun
      rw [hsame]
      exact ⟨rfl, rfl⟩
  · rw [if_neg hfull]
    constructor
    · constructor
      · intro _
        by_contra hnot
        exact hfull (hdecides.2 hnot)
      · intro _
        exact ⟨_, _, rfl⟩
    · intro e after hbad
      simp at hbad

theorem Grown.occupies {new : List Slot} (h : Grown b after new) {i byte : Nat}
    (hi : b.Occupies i byte) : after.Occupies i byte := by
  obtain ⟨hlt, hlo, hhi⟩ := hi
  have hplace : after.physical (after.offsetOf i) = b.physical (b.offsetOf i) := by
    rw [h.offsetOf_eq hlt, physical, physical, h.capacity]
  have hget : after.slots[i]? = some b.slots[i] := by
    rw [h.slots, List.getElem?_append_left hlt, List.getElem?_eq_getElem hlt]
  obtain ⟨hlt', hget⟩ := List.getElem?_eq_some_iff.1 hget
  exact ⟨hlt', by rwa [hplace], by rwa [hplace, hget]⟩

/-- A new slot has bytes that were free. -/
theorem Grown.free_of_occupies {new : List Slot} (h : Grown b after new) {j byte : Nat}
    (hnew : b.slots.length ≤ j) (hj : after.Occupies j byte) : b.Free byte := by
  intro i hi hoccupied
  have := h.ring.occupied_once (h.occupies hoccupied) hj
  omega

/-- The place that is granted was free, and is the one that the new slot has. -/
theorem Ring.reserve_place (h : b.Ring) {length slot offset : Nat} (hpos : 0 < length)
    (hr : (reserve length).run b = (.ok (slot, offset), after)) :
    b.FreeRun (b.physical offset) length ∧
      ∃ i, ∃ hi : i < after.slots.length, after.slots[i] = ⟨slot, length, .claimed⟩ ∧
        ∀ byte, after.Occupies i byte ↔
          b.physical offset ≤ byte ∧ byte < b.physical offset + length := by
  obtain ⟨padding, hgrown, hoffset, -⟩ := reserve_granted h hpos hr
  generalize hlast : b.slots.length + padding.length = last at hoffset
  have hget? : after.slots[last]? = some ⟨slot, length, .claimed⟩ := by
    simp [← hlast, hgrown.slots]
  obtain ⟨hlt, hget⟩ := List.getElem?_eq_some_iff.1 hget?
  have hphysical : after.physical (after.offsetOf last) = b.physical offset := by
    rw [← hoffset, physical, physical, hgrown.capacity]
  have hoccupies : ∀ byte, after.Occupies last byte ↔
      b.physical offset ≤ byte ∧ byte < b.physical offset + length := by
    intro byte
    have hplace : after.Occupies last byte ↔ after.physical (after.offsetOf last) ≤ byte ∧
        byte < after.physical (after.offsetOf last) + after.slots[last].reserved :=
      exists_prop_of_true hlt
    rw [hplace, hphysical, hget]
  have hwhole := hgrown.ring.whole last hlt
  rw [hphysical, hget, hgrown.capacity] at hwhole
  refine ⟨⟨hwhole, fun k hk => ?_⟩, last, hlt, hget, hoccupies⟩
  exact hgrown.free_of_occupies (by omega) ((hoccupies _).2 ⟨by omega, by omega⟩)

theorem create_fits {capacity maxFragment : Nat} (h : create capacity maxFragment = .ok b) :
    b.maxFragment = maxFragment ∧ Frame.lengthFor maxFragment ≤ capacity := by
  unfold create at h
  split at h
  · simp at h
  · next hfit =>
    simp only [Except.ok.injEq] at h
    subst h
    rw [not_or, Nat.not_lt] at hfit
    exact ⟨rfl, hfit.2⟩

/-- How a claim of so many bytes ends: it depends on free space alone. -/
structure ClaimsByFreeSpace (b : WriteBuffer) (length : Nat) : Prop where
  granted : (∃ claim after, (tryClaim length).run b = (.ok claim, after)) ↔
    b.slots = [] ∨ b.HasSpace (Frame.lengthFor length)
  /-- The claim has a range that was free and does not wrap. -/
  place : ∀ claim after, (tryClaim length).run b = (.ok claim, after) →
    claim.payload.length = length ∧
      b.FreeRun (b.physical claim.offset) (Frame.lengthFor length) ∧
      ∃ i, ∃ hi : i < after.slots.length,
        after.slots[i] = ⟨claim.slot, Frame.lengthFor length, .claimed⟩ ∧
          ∀ byte, after.Occupies i byte ↔ b.physical claim.offset ≤ byte ∧
            byte < b.physical claim.offset + Frame.lengthFor length
  refused : ∀ e after, (tryClaim length).run b = (.error e, after) →
    e = .backpressure (Frame.lengthFor length) (b.capacity - b.used) ∧ after = b

theorem Ring.claimsByFreeSpace (h : b.Ring) (hfits : Frame.lengthFor b.maxFragment ≤ b.capacity)
    (hopen : b.closed = false) {length : Nat} (hpos : 0 < length) (hmax : length ≤ b.maxFragment) :
    b.ClaimsByFreeSpace length := by
  have hlong : 0 < Frame.lengthFor length ∧ Frame.lengthFor length ≤ b.capacity := by
    unfold Frame.lengthFor Frame.headerLength at *
    omega
  obtain ⟨hgranted, hrefused⟩ := h.reserve_iff hlong.2
  have hclaim := tryClaim_run hopen (checkLength_eq_ok_iff.2 ⟨hpos, hmax⟩)
  cases hreserve : (reserve (Frame.lengthFor length)).run b with
  | mk answer after =>
    rw [hreserve] at hclaim hgranted hrefused
    cases answer with
    | error e =>
      refine ⟨?_, fun claim c hrun => ?_, fun e' c hrun => ?_⟩
      · rw [← hgranted, hclaim]
        simp
      · rw [hclaim] at hrun
        simp at hrun
      · rw [hclaim] at hrun
        exact hrefused e' c (by simpa using hrun)
    | ok granted =>
      obtain ⟨slot, offset⟩ := granted
      refine ⟨?_, fun claim c hrun => ?_, fun e' c hrun => ?_⟩
      · rw [← hgranted, hclaim]
        simp
      · rw [hclaim] at hrun
        simp only [Prod.mk.injEq, Except.ok.injEq] at hrun
        obtain ⟨rfl, rfl⟩ := hrun
        exact ⟨List.length_replicate, h.reserve_place hlong.1 hreserve⟩
      · rw [hclaim] at hrun
        simp at hrun

end WriteBuffer

/-! ## Whatever was done before -/

namespace Traffic

variable {t : Traffic} {b : WriteBuffer} {capacity maxFragment length : Nat} {moves : List Move}

/-- No move changes which lengths are taken. -/
theorem maxFragment_act (t : Traffic) (move : Move) :
    (t.act move).buffer.maxFragment = t.buffer.maxFragment := by
  unfold Traffic.act
  cases move with
  | claim length =>
    dsimp only
    split
    · next hr => exact (WriteBuffer.tryClaim_terms hr).maxFragment
    · next hr => exact (WriteBuffer.tryClaim_terms hr).maxFragment
  | commit index payload =>
    dsimp only
    split
    · rfl
    · split
      · exact (WriteBuffer.finish_terms ..).maxFragment
      · rfl
  | abort index =>
    dsimp only
    split
    · rfl
    · exact (WriteBuffer.finish_terms ..).maxFragment
  | poll max => rfl
  | settle =>
    dsimp only
    split <;> rfl
  | release count => rfl
  | shut => rfl
  | reopen => rfl

/-- A claim fails exactly for want of free bytes in a row, and then nothing changes, whatever was
claimed, ended, polled and released before. -/
theorem claims_by_free_space (h : WriteBuffer.create capacity maxFragment = .ok b)
    (hopen : ((start b).after moves).buffer.closed = false) (hpos : 0 < length)
    (hmax : length ≤ maxFragment) : ((start b).after moves).buffer.ClaimsByFreeSpace length := by
  obtain ⟨hcapacity, -, hidle⟩ := create_fresh h
  obtain ⟨hfragment, hfits⟩ := WriteBuffer.create_fits h
  have hstart : (start b).Seated capacity :=
    ⟨hcapacity, WriteBuffer.ring_of_create h, hidle, by simp [start], by simp [start]⟩
  have hafter : ((start b).after moves).Seated capacity ∧
      ((start b).after moves).buffer.maxFragment = maxFragment :=
    after_induction (P := fun u => u.Seated capacity ∧ u.buffer.maxFragment = maxFragment)
      ⟨hstart, hfragment⟩ fun move _ u hu => ⟨hu.1.act move, (maxFragment_act u move).trans hu.2⟩
  generalize (start b).after moves = t at hafter hopen
  obtain ⟨hseated, hsame⟩ := hafter
  exact hseated.ring.claimsByFreeSpace (by rw [hsame, hseated.size]; exact hfits) hopen hpos
    (by rw [hsame]; exact hmax)

/-- The slots lie on both sides of the ring's end, and the longest frame just fits between them. -/
theorem claims_by_free_space_wrapped :
    WriteBuffer.create 64 16 = .ok { capacity := 64, maxFragment := 16 } ∧
      ((start { capacity := 64, maxFragment := 16 }).after wrapped).buffer.slots ≠ [] ∧
      ((start { capacity := 64, maxFragment := 16 }).after wrapped).buffer.HasSpace 32 ∧
      ((start { capacity := 64, maxFragment := 16 }).after wrapped).buffer.ClaimsByFreeSpace 16 := by
  have hcreate : WriteBuffer.create 64 16 = .ok { capacity := 64, maxFragment := 16 } := rfl
  exact ⟨hcreate, by decide +kernel, by decide +kernel,
    claims_by_free_space hcreate (by decide +kernel) (by decide) (by decide)⟩

/-- With it the ring is full. -/
example : ¬ ((start { capacity := 64, maxFragment := 16 }).after
    (wrapped ++ [.claim 16])).buffer.HasSpace (Frame.lengthFor 1) := by
  decide +kernel

end Traffic

end PartitionLog
