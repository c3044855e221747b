import PartitionLog.Proofs.Claims

/-!
# Slots in the ring

`b.Ring`: the slots lie one behind the other from the head to the tail, numbered without gaps; they
fit into the ring, and none goes past its end. So no byte of the ring belongs to two slots
(`Ring.occupied_once`). `offsetOf` tells where a slot starts. A slot that is pushed where it fits
keeps the ring (`Ring.push`), and claiming is made of that; ending a claim and freeing slots moves
none. `b.Seats claim`: as long as the slot of the claim is in the ring, it is where the claim tells.
-/

namespace PartitionLog

/-- The bytes that some slots take up together. -/
def reservedBy : List Slot → Nat
  | [] => 0
  | s :: rest => s.reserved + reservedBy rest

@[simp] theorem reservedBy_nil : reservedBy [] = 0 := rfl

@[simp] theorem reservedBy_cons (s : Slot) (rest : List Slot) :
    reservedBy (s :: rest) = s.reserved + reservedBy rest := rfl

@[simp] theorem reservedBy_append (xs ys : List Slot) :
    reservedBy (xs ++ ys) = reservedBy xs + reservedBy ys := by
  induction xs with
  | nil => simp
  | cons s rest ih => rw [List.cons_append, reservedBy_cons, reservedBy_cons, ih, Nat.add_assoc]

theorem reservedBy_congr {xs ys : List Slot} (h : xs.map Slot.reserved = ys.map Slot.reserved) :
    reservedBy xs = reservedBy ys := by
  induction xs generalizing ys with
  | nil =>
    rw [List.map_nil, eq_comm, List.map_eq_nil_iff] at h
    rw [h]
  | cons s rest ih =>
    cases ys with
    | nil => simp at h
    | cons t more =>
      rw [List.map_cons, List.map_cons, List.cons.injEq] at h
      rw [reservedBy_cons, reservedBy_cons, h.1, ih h.2]

/-- Behind the slots in front of it, a slot takes up its bytes of those that all take up. -/
theorem reservedBy_take_succ {slots : List Slot} {i : Nat} (h : i < slots.length) :
    reservedBy (slots.take (i + 1)) = reservedBy (slots.take i) + slots[i].reserved := by
  rw [List.take_succ_eq_append_getElem h, reservedBy_append, reservedBy_cons, reservedBy_nil,
    Nat.add_zero]

theorem reservedBy_take_le {i j : Nat} (slots : List Slot) (h : i ≤ j) :
    reservedBy (slots.take i) ≤ reservedBy (slots.take j) := by
  have hsplit : slots.take j = slots.take i ++ (slots.drop i).take (j - i) := by
    rw [← List.take_add]
    congr 1
    omega
  rw [hsplit, reservedBy_append]
  omega

theorem reservedBy_take_add (slots : List Slot) (n i : Nat) :
    reservedBy (slots.take (n + i)) = reservedBy (slots.take n) + reservedBy ((slots.drop n).take i) := by
  rw [List.take_add, reservedBy_append]

theorem foldl_reserved (slots : List Slot) (head : Nat) :
    slots.foldl (· + ·.reserved) head = head + reservedBy slots := by
  induction slots generalizing head with
  | nil => rfl
  | cons s rest ih => rw [List.foldl_cons, ih, reservedBy_cons, Nat.add_assoc]

namespace WriteBuffer

/-- The logical offset at which the slot with this index starts. -/
def offsetOf (b : WriteBuffer) (i : Nat) : Nat := b.head + reservedBy (b.slots.take i)

/-- Whether a byte of the ring belongs to the slot with this index. -/
def Occupies (b : WriteBuffer) (i : Nat) (byte : Nat) : Prop :=
  ∃ h : i < b.slots.length, b.physical (b.offsetOf i) ≤ byte ∧
    byte < b.physical (b.offsetOf i) + b.slots[i].reserved

structure Ring (b : WriteBuffer) : Prop where
  room : 0 < b.capacity
  numbered : b.Numbered
  spans : b.tail = b.head + reservedBy b.slots
  fits : reservedBy b.slots ≤ b.capacity
  filled : ∀ s ∈ b.slots, 0 < s.reserved
  /-- No slot goes past the end of the ring. -/
  whole : ∀ i (h : i < b.slots.length),
    b.physical (b.offsetOf i) + b.slots[i].reserved ≤ b.capacity

variable {b after : WriteBuffer}

theorem Ring.used_eq (h : b.Ring) : b.used = reservedBy b.slots := by
  rw [used, h.spans, Nat.add_sub_cancel_left]

/-- A ring in which no byte is used has no slots. -/
theorem Ring.slots_eq_nil (h : b.Ring) (hused : b.used = 0) : b.slots = [] := by
  cases hs : b.slots with
  | nil => rfl
  | cons s rest =>
    have hpos := h.filled s (by rw [hs]; exact List.mem_cons_self)
    rw [h.used_eq, hs, reservedBy_cons] at hused
    omega

theorem ring_of_create {capacity maxFragment : Nat} (h : create capacity maxFragment = .ok b) :
    b.Ring := by
  unfold create at h
  split at h
  · simp at h
  · next hfit =>
    simp only [Except.ok.injEq] at h
    subst h
    rw [not_or, Frame.lengthFor, Frame.headerLength] at hfit
    exact {
      room := by dsimp only; omega
      numbered := by intro i hi; simp at hi
      spans := rfl
      fits := Nat.zero_le _
      filled := by simp
      whole := by intro i hi; simp at hi }

/-! ## Disjoint slots -/

/-- A slot ends before a later one starts. -/
theorem offsetOf_add_le (b : WriteBuffer) {i j : Nat} (hi : i < b.slots.length) (hij : i < j) :
    b.offsetOf i + b.slots[i].reserved ≤ b.offsetOf j := by
  have hle := reservedBy_take_le b.slots (show i + 1 ≤ j by omega)
  rw [reservedBy_take_succ hi] at hle
  unfold offsetOf
  omega

/-- The last slot ends within one turn of the ring. -/
theorem Ring.end_le (h : b.Ring) {j : Nat} (hj : j < b.slots.length) :
    b.offsetOf j + b.slots[j].reserved ≤ b.head + b.capacity := by
  have hle := reservedBy_take_le b.slots (show j + 1 ≤ b.slots.length by omega)
  rw [reservedBy_take_succ hj, List.take_length] at hle
  have := h.fits
  unfold offsetOf
  omega

/-- The logical place of a byte: it is the only one in its slot with that physical place. -/
theorem exists_logical {offset reserved byte capacity : Nat} (hlo : offset % capacity ≤ byte)
    (hhi : byte < offset % capacity + reserved)
    (hwhole : offset % capacity + reserved ≤ capacity) :
    ∃ place, offset ≤ place ∧ place < offset + reserved ∧ place % capacity = byte := by
  refine ⟨offset + (byte - offset % capacity), by omega, by omega, ?_⟩
  have hdiv := Nat.div_add_mod offset capacity
  have hplace : offset + (byte - offset % capacity) = capacity * (offset / capacity) + byte := by
    omega
  rw [hplace, Nat.mul_add_mod, Nat.mod_eq_of_lt (by omega)]

/-- Places less than one turn apart are different bytes. -/
theorem mod_ne_of_lt {x y capacity : Nat} (hlt : x < y) (hturn : y < x + capacity) :
    x % capacity ≠ y % capacity := by
  intro heq
  have hdvd : capacity ∣ y - x := Nat.dvd_of_mod_eq_zero (Nat.sub_mod_eq_zero_of_mod_eq heq.symm)
  have hle := Nat.le_of_dvd (by omega) hdvd
  omega

theorem Ring.not_occupied_twice (h : b.Ring) {i j byte : Nat} (hij : i < j)
    (hi : b.Occupies i byte) : ¬ b.Occupies j byte := by
  intro hj
  obtain ⟨hil, hilo, hihi⟩ := hi
  obtain ⟨hjl, hjlo, hjhi⟩ := hj
  obtain ⟨x, hxlo, hxhi, hx⟩ := exists_logical hilo hihi (h.whole i hil)
  obtain ⟨y, hylo, hyhi, hy⟩ := exists_logical hjlo hjhi (h.whole j hjl)
  have hapart := b.offsetOf_add_le hil hij
  have hend := h.end_le hjl
  have hhead : b.head ≤ b.offsetOf i := Nat.le_add_right ..
  exact mod_ne_of_lt (show x < y by omega) (show y < x + b.capacity by omega) (hx.trans hy.symm)

/-- No byte of the ring belongs to two slots. -/
theorem Ring.occupied_once (h : b.Ring) {i j byte : Nat} (hi : b.Occupies i byte)
    (hj : b.Occupies j byte) : i = j := by
  rcases Nat.lt_trichotomy i j with hlt | heq | hgt
  · exact absurd hj (h.not_occupied_twice hlt hi)
  · exact heq
  · exact absurd hi (h.not_occupied_twice hgt hj)

/-- The slot of a claim, if it is still in the ring, is where the claim tells. -/
def Seats (b : WriteBuffer) (claim : Claim) : Prop :=
  ∀ i (h : i < b.slots.length), b.slots[i].id = claim.slot →
    claim.offset = b.offsetOf i ∧ b.slots[i].reserved = Frame.lengthFor claim.payload.length

/-! ## Claiming -/

/-- What the ring is made of; everything else may differ. -/
theorem Ring.congr (h : b.Ring) (hcapacity : after.capacity = b.capacity)
    (hslots : after.slots = b.slots) (hhead : after.head = b.head) (htail : after.tail = b.tail)
    (hnext : after.nextSlot = b.nextSlot) : after.Ring := by
  obtain ⟨capacity, maxFragment, slots, head, tail, nextSlot, outstanding, closed, doorbell⟩ := after
  simp only at hcapacity hslots hhead htail hnext
  subst hcapacity hslots hhead htail hnext
  exact ⟨h.room, h.numbered, h.spans, h.fits, h.filled, h.whole⟩

theorem offsetOf_push (b : WriteBuffer) {i : Nat} (hi : i ≤ b.slots.length) (reserved : Nat)
    (state : SlotState) : (b.push reserved state).offsetOf i = b.offsetOf i := by
  simp only [offsetOf, WriteBuffer.push, List.take_append_of_le_length hi]

theorem Ring.offsetOf_length (h : b.Ring) : b.offsetOf b.slots.length = b.tail := by
  rw [offsetOf, List.take_length, h.spans]

/-- A slot that is pushed starts at the tail. -/
theorem Ring.offsetOf_pushed (h : b.Ring) (reserved : Nat) (state : SlotState) :
    (b.push reserved state).offsetOf b.slots.length = b.tail := by
  rw [offsetOf_push b (Nat.le_refl _), h.offsetOf_length]

theorem Ring.push (h : b.Ring) (state : SlotState) {reserved : Nat} (hpos : 0 < reserved)
    (hroom : b.used + reserved ≤ b.capacity)
    (hwhole : b.physical b.tail + reserved ≤ b.capacity) : (b.push reserved state).Ring where
  room := h.room
  numbered := by
    refine h.numbered.append rfl rfl fun i hi => ?_
    obtain rfl : i = 0 := by simpa using hi
    rfl
  spans := by
    simp only [WriteBuffer.push, reservedBy_append, reservedBy_cons, reservedBy_nil, h.spans]
    omega
  fits := by
    rw [h.used_eq] at hroom
    simpa [WriteBuffer.push] using hroom
  filled := by
    intro s hs
    rcases List.mem_append.1 hs with hold | hnew
    · exact h.filled s hold
    · obtain rfl := List.mem_singleton.1 hnew
      exact hpos
  whole := by
    intro i hi
    have hlen : (b.push reserved state).slots.length = b.slots.length + 1 := by
      simp [WriteBuffer.push]
    rw [offsetOf_push b (by omega)]
    rcases Nat.lt_or_ge i b.slots.length with hlt | hge
    · have hget : (b.push reserved state).slots[i] = b.slots[i] := List.getElem_append_left hlt
      rw [hget]
      exact h.whole i hlt
    · obtain rfl : i = b.slots.length := by omega
      have hget : (b.push reserved state).slots[b.slots.length].reserved = reserved := by
        simp [WriteBuffer.push]
      rw [hget, h.offsetOf_length]
      exact hwhole

/-- Moving the offsets on changes nothing where there are slots. -/
theorem Ring.restart (h : b.Ring) (length : Nat) :
    (b.restart length).Ring ∧ (b.slots ≠ [] → b.restart length = b) := by
  unfold WriteBuffer.restart
  split
  · next hused =>
    have hnil := h.slots_eq_nil hused
    refine ⟨⟨h.room, h.numbered, ?_, h.fits, h.filled, ?_⟩, fun hne => absurd hnil hne⟩
    · simp only [h.spans]
      omega
    · intro i hi
      simp only [hnil, List.length_nil] at hi
      omega
  · exact ⟨h, fun _ => rfl⟩

/-- Behind the padding a slot starts at the beginning of the ring. -/
theorem physical_padded (hroom : 0 < b.capacity) :
    (b.tail + (b.capacity - b.physical b.tail)) % b.capacity = 0 := by
  have hlt := Nat.mod_lt b.tail hroom
  have hdiv := Nat.div_add_mod b.tail b.capacity
  have hturn : b.tail + (b.capacity - b.physical b.tail)
      = b.capacity * (b.tail / b.capacity + 1) := by
    rw [Nat.mul_succ, physical]
    omega
  rw [hturn, Nat.mul_mod_right]

/-- `after` has the slots of `b`, the new ones behind them, and the ring is kept. -/
structure Grown (b after : WriteBuffer) (new : List Slot) : Prop where
  ring : after.Ring
  capacity : after.capacity = b.capacity
  slots : after.slots = b.slots ++ new
  next : after.nextSlot = b.nextSlot + new.length
  head : b.slots ≠ [] → after.head = b.head

theorem Grown.offsetOf_eq {new : List Slot} (h : Grown b after new) {i : Nat}
    (hi : i < b.slots.length) : after.offsetOf i = b.offsetOf i := by
  have hne : b.slots ≠ [] := fun hnil => by rw [hnil] at hi; exact absurd hi (Nat.not_lt_zero i)
  rw [offsetOf, offsetOf, h.head hne, h.slots, List.take_append_of_le_length (Nat.le_of_lt hi)]

/-- New slots have numbers that were not given before. -/
theorem Grown.lt_of_id_lt {new : List Slot} (h : Grown b after new) {i : Nat}
    (hi : i < after.slots.length) (hid : after.slots[i].id < b.nextSlot) : i < b.slots.length := by
  have hlen : after.slots.length = b.slots.length + new.length := by
    rw [h.slots, List.length_append]
  have hnumber := h.ring.numbered i hi
  have hnext := h.next
  omega

theorem Grown.seats {new : List Slot} {claim : Claim} (h : Grown b after new) (hs : b.Seats claim)
    (hlt : claim.slot < b.nextSlot) : after.Seats claim := by
  intro i hi hid
  have hold : i < b.slots.length := h.lt_of_id_lt hi (hid ▸ hlt)
  have hget : after.slots[i] = b.slots[i] := by
    simp only [h.slots]
    exact List.getElem_append_left hold
  rw [hget] at hid ⊢
  rw [h.offsetOf_eq hold]
  exact hs i hold hid

/-- Slots have different numbers, so the last one is the only one of the claim. -/
theorem Grown.seats_last {padding : List Slot} (claim : Claim)
    (h : Grown b after
      (padding ++ [⟨claim.slot, Frame.lengthFor claim.payload.length, .claimed⟩]))
    (hoffset : claim.offset = after.offsetOf (b.slots.length + padding.length)) :
    after.Seats claim ∧ b.nextSlot ≤ claim.slot ∧ claim.slot < after.nextSlot := by
  have hlen : after.slots.length = b.slots.length + padding.length + 1 := by
    rw [h.slots]
    simp [Nat.add_assoc]
  have hlast : b.slots.length + padding.length < after.slots.length := by omega
  have hget : after.slots[b.slots.length + padding.length]
      = ⟨claim.slot, Frame.lengthFor claim.payload.length, .claimed⟩ := by
    simp [h.slots]
  have hslot := h.ring.numbered _ hlast
  rw [hget] at hslot
  dsimp only at hslot
  have hnext := h.next
  simp only [List.length_append, List.length_cons, List.length_nil] at hnext
  refine ⟨fun i hi hid => ?_, by omega, by omega⟩
  have hnumber := h.ring.numbered i hi
  obtain rfl : i = b.slots.length + padding.length := by omega
  exact ⟨hoffset, by rw [hget]⟩

theorem outstanding_restart (b : WriteBuffer) (length : Nat) :
    (b.restart length).outstanding = b.outstanding := by
  unfold WriteBuffer.restart; split <;> rfl

theorem reserve_refused {length : Nat} {e : LogError} (h : b.Ring)
    (hr : (reserve length).run b = (.error e, after)) :
    Grown b after [] ∧ after.outstanding = b.outstanding := by
  obtain ⟨_, -, rfl⟩ | ⟨-, _, -, hok, -⟩ := reserve_cases hr
  · obtain ⟨hring, hsame⟩ := h.restart length
    obtain ⟨hslots, hnext⟩ := restart_slots b length
    exact ⟨⟨hring, (restart_terms b length).capacity, by rw [hslots, List.append_nil], hnext,
      fun hne => by rw [hsame hne]⟩, outstanding_restart b length⟩
  · simp at hok

/-- Space is taken at the end of the slots, behind padding where it would go past the ring's end. -/
theorem reserve_granted {length slot offset : Nat} (h : b.Ring) (hpos : 0 < length)
    (hr : (reserve length).run b = (.ok (slot, offset), after)) :
    ∃ padding, Grown b after (padding ++ [⟨slot, length, .claimed⟩]) ∧
      offset = after.offsetOf (b.slots.length + padding.length) ∧
      after.outstanding = b.outstanding + 1 := by
  obtain ⟨hring, hsame⟩ := h.restart length
  obtain ⟨hslots, hnext⟩ := restart_slots b length
  have hcapacity := (restart_terms b length).capacity
  have houtstanding := outstanding_restart b length
  have hhead : b.slots ≠ [] → (b.restart length).head = b.head := fun hne => by rw [hsame hne]
  obtain ⟨_, hbad, -⟩ | ⟨hroom, padded, hpadded, hok, rfl⟩ := reserve_cases hr
  · simp at hbad
  · generalize b.restart length = r at hring hslots hnext hcapacity houtstanding hhead hroom hpadded
    have hphysical : r.physical r.tail < r.capacity := Nat.mod_lt _ hring.room
    simp only [Except.ok.injEq, Prod.mk.injEq] at hok
    obtain ⟨rfl, rfl⟩ := hok
    subst hpadded
    unfold paddingFor at hroom ⊢
    by_cases hpast : r.capacity < r.physical r.tail + length
    · -- the rest of the ring is padding, and the slot starts at its beginning
      rw [if_pos hpast] at hroom ⊢
      rw [if_pos (show 0 < r.capacity - r.physical r.tail by omega)]
      have hpadded := hring.push .padding
        (show 0 < r.capacity - r.physical r.tail by omega) (by omega) (by omega)
      have hstart : (r.push (r.capacity - r.physical r.tail) .padding).physical
          (r.push (r.capacity - r.physical r.tail) .padding).tail = 0 := physical_padded hring.room
      have hused : (r.push (r.capacity - r.physical r.tail) .padding).used
          = r.used + (r.capacity - r.physical r.tail) := by
        rw [hpadded.used_eq, hring.used_eq]
        simp [WriteBuffer.push]
      have hpushed := hpadded.push .claimed hpos (by rw [hused]; exact hroom)
        (by rw [hstart]; simp only [WriteBuffer.push]; omega)
      refine ⟨[⟨b.nextSlot, r.capacity - r.physical r.tail, .padding⟩], ⟨hpushed.congr rfl rfl rfl
        rfl rfl, hcapacity, ?_, ?_, hhead⟩, ?_, ?_⟩
      · simp [WriteBuffer.push, hslots, hnext]
      · simp [WriteBuffer.push, hnext]
      · have hlen : (r.push (r.capacity - r.physical r.tail) .padding).slots.length
            = b.slots.length + 1 := by simp [WriteBuffer.push, hslots]
        have hself := hpadded.offsetOf_pushed length .claimed
        rw [hlen] at hself
        exact hself.symm
      · simp [WriteBuffer.push, houtstanding]
    · rw [if_neg hpast] at hroom ⊢
      rw [if_neg (Nat.lt_irrefl 0)]
      have hpushed := hring.push .claimed hpos (by omega) (by omega)
      refine ⟨[], ⟨hpushed.congr rfl rfl rfl rfl rfl, hcapacity, ?_, ?_, hhead⟩, ?_, ?_⟩
      · simp [WriteBuffer.push, hslots]
      · simp [WriteBuffer.push, hnext]
      · have hself := hring.offsetOf_pushed length .claimed
        rw [hslots] at hself
        exact hself.symm
      · simp [houtstanding]

theorem tryClaim_refused {length : Nat} {e : LogError} (h : b.Ring)
    (hr : (tryClaim length).run b = (.error e, after)) :
    Grown b after [] ∧ after.outstanding = b.outstanding := by
  obtain ⟨_, -, rfl⟩ | ⟨_, -, hrun⟩ | ⟨-, -, _, _, hok, -⟩ := tryClaim_cases hr
  · exact ⟨⟨h, rfl, (List.append_nil _).symm, rfl, fun _ => rfl⟩, rfl⟩
  · exact reserve_refused h hrun
  · simp at hok

/-- A claim has a new slot, and tells where it is. -/
theorem tryClaim_granted {length : Nat} {claim : Claim} (h : b.Ring)
    (hr : (tryClaim length).run b = (.ok claim, after)) :
    ∃ new, Grown b after new ∧ after.Seats claim ∧ claim.slot < after.nextSlot ∧
      after.outstanding = b.outstanding + 1 := by
  obtain ⟨_, hbad, -⟩ | ⟨_, hbad, -⟩ | ⟨-, -, slot, offset, hok, hrun⟩ := tryClaim_cases hr
  · simp at hbad
  · simp at hbad
  · simp only [Except.ok.injEq] at hok
    subst hok
    have hpos : 0 < Frame.lengthFor length := by
      rw [Frame.lengthFor, Frame.headerLength]
      omega
    obtain ⟨padding, hgrown, hoffset, hmore⟩ := reserve_granted h hpos hrun
    have hlength : (List.replicate length (0 : UInt8)).length = length := List.length_replicate
    obtain ⟨hseats, -, hlt⟩ := Grown.seats_last ⟨_, _, List.replicate length 0⟩
      (by simpa only [hlength] using hgrown) hoffset
    exact ⟨_, hgrown, hseats, hlt, hmore⟩

/-! ## Ending claims and freeing slots -/

/-- The places of the slots do not depend on their states. -/
theorem Ring.of_places (h : b.Ring) (hcapacity : after.capacity = b.capacity)
    (hids : after.slots.map Slot.id = b.slots.map Slot.id)
    (hreserved : after.slots.map Slot.reserved = b.slots.map Slot.reserved)
    (hhead : after.head = b.head) (htail : after.tail = b.tail)
    (hnext : after.nextSlot = b.nextSlot) :
    after.Ring ∧ ∀ i, after.offsetOf i = b.offsetOf i := by
  have hlen : after.slots.length = b.slots.length := by
    simpa using congrArg List.length hids
  have hall : reservedBy after.slots = reservedBy b.slots := reservedBy_congr hreserved
  have htake : ∀ i, after.offsetOf i = b.offsetOf i := by
    intro i
    have hfront : (after.slots.take i).map Slot.reserved = (b.slots.take i).map Slot.reserved := by
      rw [List.map_take, List.map_take, hreserved]
    rw [offsetOf, offsetOf, hhead, reservedBy_congr hfront]
  have hget : ∀ i (hi : i < after.slots.length) (hj : i < b.slots.length),
      after.slots[i].id = b.slots[i].id ∧ after.slots[i].reserved = b.slots[i].reserved := by
    intro i hi hj
    constructor
    · have hid := List.getElem_of_eq hids (by simpa using hi)
      simpa using hid
    · have hbytes := List.getElem_of_eq hreserved (by simpa using hi)
      simpa using hbytes
  refine ⟨⟨hcapacity ▸ h.room, ?_, ?_, ?_, ?_, ?_⟩, htake⟩
  · intro i hi
    have hj : i < b.slots.length := hlen ▸ hi
    have hid := (hget i hi hj).1
    have hnumber := h.numbered i hj
    omega
  · rw [htail, hhead, hall]
    exact h.spans
  · rw [hall, hcapacity]
    exact h.fits
  · intro s hs
    obtain ⟨i, hi, rfl⟩ := List.getElem_of_mem hs
    have hj : i < b.slots.length := hlen ▸ hi
    rw [(hget i hi hj).2]
    exact h.filled _ (List.getElem_mem hj)
  · intro i hi
    have hj : i < b.slots.length := hlen ▸ hi
    have hphysical : after.physical (after.offsetOf i) = b.physical (b.offsetOf i) := by
      rw [htake, physical, physical, hcapacity]
    rw [hphysical, (hget i hi hj).2, hcapacity]
    exact h.whole i hj

theorem places_finish (b : WriteBuffer) (slot : Nat) (outcome : SlotState) :
    (b.finish slot outcome).slots.map Slot.id = b.slots.map Slot.id ∧
      (b.finish slot outcome).slots.map Slot.reserved = b.slots.map Slot.reserved := by
  have hmodify : ∀ {α : Type} (f : Slot → α) (n : Nat),
      (∀ s : Slot, f { s with state := outcome } = f s) →
      (b.slots.modify n ({ · with state := outcome })).map f = b.slots.map f := by
    intro α f n hf
    apply List.ext_getElem
    · simp
    · intro i hi hi'
      rw [List.getElem_map, List.getElem_map, List.getElem_modify]
      split
      · exact hf _
      · rfl
  simp only [WriteBuffer.finish, setState]
  split
  · exact ⟨rfl, rfl⟩
  · split
    · exact ⟨rfl, rfl⟩
    · exact ⟨hmodify _ _ fun _ => rfl, hmodify _ _ fun _ => rfl⟩

theorem outstanding_finish (b : WriteBuffer) (slot : Nat) (outcome : SlotState) :
    (b.finish slot outcome).outstanding = b.outstanding - 1 := by
  simp only [WriteBuffer.finish, setState]
  split
  · rfl
  · split <;> rfl

/-- Closing succeeds once no claim is outstanding. -/
theorem waited_eq_ok_iff {grace : Nat} : b.waited grace = .ok () ↔ b.outstanding = 0 := by
  unfold waited
  split
  · next hpos =>
    constructor
    · intro h
      simp at h
    · intro h
      omega
  · next hzero => exact ⟨fun _ => by omega, fun _ => rfl⟩

/-- Whether or not the slot is still in the ring. -/
theorem Ring.finish (h : b.Ring) (slot : Nat) (outcome : SlotState) :
    (b.finish slot outcome).Ring ∧ ∀ i, (b.finish slot outcome).offsetOf i = b.offsetOf i := by
  obtain ⟨hids, hreserved⟩ := places_finish b slot outcome
  have hset : (b.setState slot outcome).head = b.head ∧ (b.setState slot outcome).tail = b.tail := by
    unfold setState
    split
    · exact ⟨rfl, rfl⟩
    · split <;> exact ⟨rfl, rfl⟩
  exact h.of_places (finish_terms b slot outcome).capacity hids hreserved hset.1 hset.2
    (nextSlot_finish b slot outcome)

theorem Seats.finish {claim : Claim} (hs : b.Seats claim) (h : b.Ring) (slot : Nat)
    (outcome : SlotState) : (b.finish slot outcome).Seats claim := by
  obtain ⟨hids, hreserved⟩ := places_finish b slot outcome
  intro i hi hid
  have hlen : (b.finish slot outcome).slots.length = b.slots.length := by
    simpa using congrArg List.length hids
  have hold : i < b.slots.length := hlen ▸ hi
  have hid' := List.getElem_of_eq hids (by simpa using hi)
  have hbytes := List.getElem_of_eq hreserved (by simpa using hi)
  simp only [List.getElem_map] at hid' hbytes
  obtain ⟨hplace, hlength⟩ := hs i hold (hid'.symm.trans hid)
  exact ⟨hplace.trans ((h.finish slot outcome).2 i).symm, hbytes.trans hlength⟩

theorem offsetOf_release (b : WriteBuffer) (count i : Nat) :
    (b.release count).offsetOf i = b.offsetOf (count + i) := by
  simp only [offsetOf, release, foldl_reserved, reservedBy_take_add, Nat.add_assoc]

/-- The slots that stay are those behind the first ones. -/
theorem getElem_release {count i : Nat} (hi : i < (b.release count).slots.length) :
    ∃ h : count + i < b.slots.length, (b.release count).slots[i] = b.slots[count + i] := by
  have hlen : (b.release count).slots.length = b.slots.length - count := List.length_drop
  exact ⟨by omega, by simp [WriteBuffer.release]⟩

theorem Seats.release {claim : Claim} (hs : b.Seats claim) (count : Nat) :
    (b.release count).Seats claim := by
  intro i hi hid
  obtain ⟨hi', hget⟩ := getElem_release hi
  rw [hget] at hid ⊢
  rw [offsetOf_release]
  exact hs (count + i) hi' hid

theorem Ring.release (h : b.Ring) (count : Nat) : (b.release count).Ring where
  room := h.room
  numbered := by
    intro i hi
    obtain ⟨hi', hget⟩ := getElem_release hi
    have hnumber := h.numbered (count + i) hi'
    have hlen : (b.release count).slots.length = b.slots.length - count := List.length_drop
    have hnext : (b.release count).nextSlot = b.nextSlot := rfl
    rw [hget]
    omega
  spans := by
    have hsplit := reservedBy_append (b.slots.take count) (b.slots.drop count)
    rw [List.take_append_drop] at hsplit
    simp only [WriteBuffer.release, foldl_reserved]
    have := h.spans
    omega
  fits := by
    have hsplit := reservedBy_append (b.slots.take count) (b.slots.drop count)
    rw [List.take_append_drop] at hsplit
    simp only [WriteBuffer.release]
    have := h.fits
    omega
  filled := fun s hs => h.filled s (List.mem_of_mem_drop hs)
  whole := by
    intro i hi
    obtain ⟨hi', hget⟩ := getElem_release hi
    rw [hget, offsetOf_release]
    exact h.whole (count + i) hi'

end WriteBuffer

end PartitionLog
