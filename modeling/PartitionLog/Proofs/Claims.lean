import PartitionLog.WriteBuffer

/-!
# Claims and their slots

The write buffer as a list of claims: `entries` tells for every slot that a producer claimed, oldest
first, what became of the claim. Claiming puts an entry at the end, ending a claim changes its entry,
and the drainer takes entries from the front that are not held any more (`pollBlock_spec`).
`Numbered` slots have consecutive ids, so that a claim finds its slot.
-/

namespace PartitionLog

/-- What became of a claim. -/
inductive Fate where
  | held
  | committed (payload : Bytes)
  | aborted
  deriving DecidableEq, Repr

structure ClaimEntry where
  slot : Nat
  fate : Fate
  deriving DecidableEq, Repr

namespace ClaimEntry

/-- The payload of a committed claim. -/
def payload? (e : ClaimEntry) : Option Bytes :=
  match e.fate with
  | .committed payload => some payload
  | _ => none

/-- End the claim of a slot, unless it ended before. -/
def finish (slot : Nat) (fate : Fate) (e : ClaimEntry) : ClaimEntry :=
  if e.slot = slot ∧ e.fate = .held then { e with fate := fate } else e

@[simp] theorem slot_finish (slot : Nat) (fate : Fate) (e : ClaimEntry) :
    (e.finish slot fate).slot = e.slot := by
  unfold finish; split <;> rfl

theorem finish_of_not_held {slot : Nat} {fate : Fate} {e : ClaimEntry} (h : e.fate ≠ .held) :
    e.finish slot fate = e := if_neg fun hc => h hc.2

end ClaimEntry

namespace Slot

/-- The claim that a slot belongs to; padding belongs to none. -/
def entry? (s : Slot) : Option ClaimEntry :=
  match s.state with
  | .claimed => some ⟨s.id, .held⟩
  | .committed payload => some ⟨s.id, .committed payload⟩
  | .aborted => some ⟨s.id, .aborted⟩
  | .padding => none

/-- Change the state of a slot that is still claimed. -/
def finish (slot : Nat) (state : SlotState) (s : Slot) : Slot :=
  if s.id = slot ∧ s.state = .claimed then { s with state := state } else s

theorem id_finish (slot : Nat) (state : SlotState) (s : Slot) : (s.finish slot state).id = s.id := by
  unfold finish; split <;> rfl

theorem finish_of_ne {slot : Nat} {state : SlotState} {s : Slot} (h : s.state ≠ .claimed) :
    s.finish slot state = s := if_neg fun hc => h hc.2

theorem held_iff {s : Slot} {e : ClaimEntry} (h : s.entry? = some e) :
    e.fate = .held ↔ s.state = .claimed := by
  unfold entry? at h
  cases hs : s.state <;> simp only [hs, Option.some.injEq, reduceCtorEq] at h <;> subst h <;> simp

end Slot

/-- The entries of some slots. -/
def entriesOf (slots : List Slot) : List ClaimEntry := slots.filterMap Slot.entry?

/-- The committed payloads of some entries. -/
def payloadsOf (entries : List ClaimEntry) : List Bytes := entries.filterMap ClaimEntry.payload?

/-- Whether no claim of these slots is held. -/
def Ended (slots : List Slot) : Prop := ∀ s ∈ slots, s.state ≠ .claimed

/-- Whether the drainer finds a payload before it comes to a claim that is held. -/
def Drainable (slots : List Slot) : Prop :=
  ∃ run more, slots = run ++ more ∧ Ended run ∧ payloadsOf (entriesOf run) ≠ []

/-- Whether the bytes are frames of payloads that the drainer finds so, maybe cut off. -/
def Buffered (slots : List Slot) (bytes : Bytes) : Prop :=
  ∃ run more position, slots = run ++ more ∧ Ended run ∧ payloadsOf (entriesOf run) ≠ [] ∧
    bytes <+: Frame.encodeRun position (payloadsOf (entriesOf run))

@[simp] theorem entriesOf_append (xs ys : List Slot) :
    entriesOf (xs ++ ys) = entriesOf xs ++ entriesOf ys := by simp [entriesOf]

@[simp] theorem payloadsOf_append (xs ys : List ClaimEntry) :
    payloadsOf (xs ++ ys) = payloadsOf xs ++ payloadsOf ys := by simp [payloadsOf]

theorem mem_payloadsOf {entries : List ClaimEntry} {x : Bytes} :
    x ∈ payloadsOf entries ↔ ∃ e ∈ entries, e.fate = .committed x := by
  have hpayload : ∀ e : ClaimEntry, e.payload? = some x ↔ e.fate = .committed x := by
    intro e
    unfold ClaimEntry.payload?
    cases e.fate <;> simp
  simp only [payloadsOf, List.mem_filterMap, hpayload]

/-- Ending a claim adds at most the payload that it is committed with. -/
theorem mem_payloadsOf_finish {entries : List ClaimEntry} {slot : Nat} {fate : Fate} {x : Bytes}
    (h : x ∈ payloadsOf (entries.map (ClaimEntry.finish slot fate))) :
    x ∈ payloadsOf entries ∨ fate = .committed x := by
  obtain ⟨e, he, hx⟩ := mem_payloadsOf.1 h
  obtain ⟨old, hold, rfl⟩ := List.mem_map.1 he
  unfold ClaimEntry.finish at hx
  split at hx
  · exact .inr hx
  · exact .inl (mem_payloadsOf.2 ⟨old, hold, hx⟩)

theorem not_held_of_ended {slots : List Slot} (h : Ended slots) :
    ∀ e ∈ entriesOf slots, e.fate ≠ .held := by
  intro e he
  obtain ⟨s, hs, hse⟩ := List.mem_filterMap.1 he
  exact fun hf => h s hs ((Slot.held_iff hse).1 hf)

theorem Drainable.ne_nil {slots : List Slot} (h : Drainable slots) : slots ≠ [] := by
  rintro rfl
  obtain ⟨run, more, hs, -, hp⟩ := h
  obtain ⟨rfl, -⟩ := List.append_eq_nil_iff.1 hs.symm
  exact hp rfl

theorem Drainable.append {slots : List Slot} (h : Drainable slots) (new : List Slot) :
    Drainable (slots ++ new) := by
  obtain ⟨run, more, rfl, he, hp⟩ := h
  exact ⟨run, more ++ new, by simp, he, hp⟩

theorem map_finish_of_ended {slots : List Slot} (h : Ended slots) (slot : Nat) (state : SlotState) :
    slots.map (Slot.finish slot state) = slots := by
  rw [List.map_congr_left fun s hs => Slot.finish_of_ne (h s hs), List.map_id']

theorem Drainable.finish {slots : List Slot} (h : Drainable slots) (slot : Nat)
    (state : SlotState) : Drainable (slots.map (Slot.finish slot state)) := by
  obtain ⟨run, more, rfl, he, hp⟩ := h
  exact ⟨run, more.map (Slot.finish slot state),
    by rw [List.map_append, map_finish_of_ended he], he, hp⟩

theorem Buffered.drainable {slots : List Slot} {bytes : Bytes} (h : Buffered slots bytes) :
    Drainable slots := by
  obtain ⟨run, more, -, hs, he, hp, -⟩ := h
  exact ⟨run, more, hs, he, hp⟩

theorem Buffered.of_isPrefix {slots : List Slot} {bytes cut : Bytes} (h : Buffered slots bytes)
    (hcut : cut <+: bytes) : Buffered slots cut := by
  obtain ⟨run, more, position, hs, he, hp, hb⟩ := h
  exact ⟨run, more, position, hs, he, hp, hcut.trans hb⟩

theorem Buffered.append {slots : List Slot} {bytes : Bytes} (h : Buffered slots bytes)
    (new : List Slot) : Buffered (slots ++ new) bytes := by
  obtain ⟨run, more, position, rfl, he, hp, hb⟩ := h
  exact ⟨run, more ++ new, position, by simp, he, hp, hb⟩

theorem Buffered.finish {slots : List Slot} {bytes : Bytes} (h : Buffered slots bytes) (slot : Nat)
    (state : SlotState) : Buffered (slots.map (Slot.finish slot state)) bytes := by
  obtain ⟨run, more, position, rfl, he, hp, hb⟩ := h
  exact ⟨run, more.map (Slot.finish slot state), position,
    by rw [List.map_append, map_finish_of_ended he], he, hp, hb⟩

namespace WriteBuffer

/-- The claims whose slots are in the buffer, oldest first. -/
def entries (b : WriteBuffer) : List ClaimEntry := entriesOf b.slots

theorem entries_split (b : WriteBuffer) (count : Nat) :
    b.entries = entriesOf (b.slots.take count) ++ entriesOf (b.slots.drop count) := by
  rw [← entriesOf_append, List.take_append_drop]
  rfl

/-- Slots are numbered without gaps, up to the next number. -/
def Numbered (b : WriteBuffer) : Prop :=
  ∀ i (h : i < b.slots.length), b.slots[i].id + b.slots.length = b.nextSlot + i

/-! ## Claiming -/

theorem Numbered.append {b after : WriteBuffer} (h : b.Numbered) {new : List Slot}
    (hslots : after.slots = b.slots ++ new) (hnext : after.nextSlot = b.nextSlot + new.length)
    (hids : ∀ i (hi : i < new.length), new[i].id = b.nextSlot + i) : after.Numbered := by
  obtain ⟨_, _, slots, _, _, nextSlot, _, _, _⟩ := after
  simp only at hslots hnext
  subst hslots hnext
  intro i hi
  simp only [List.length_append] at hi ⊢
  rcases Nat.lt_or_ge i b.slots.length with hlt | hge
  · have := h i hlt
    rw [List.getElem_append_left hlt]
    omega
  · have := hids (i - b.slots.length) (by omega)
    rw [List.getElem_append_right hge, this]
    omega

theorem Numbered.drop {b after : WriteBuffer} (h : b.Numbered) {count : Nat}
    (hslots : after.slots = b.slots.drop count) (hnext : after.nextSlot = b.nextSlot) :
    after.Numbered := by
  intro i hi
  simp only [hslots, List.length_drop] at hi
  have := h (count + i) (by omega)
  simp only [hslots, hnext, List.length_drop, List.getElem_drop]
  omega

/-- The slots that a claim adds: its own one, after padding where the ring has to be filled up. -/
structure Claimed (b after : WriteBuffer) (slot length : Nat) (new : List Slot) : Prop where
  slots : after.slots = b.slots ++ new
  next : after.nextSlot = slot + 1
  numbered : b.Numbered → after.Numbered
  fresh : b.nextSlot ≤ slot
  entries : entriesOf new = [⟨slot, .held⟩]
  mem : ⟨slot, length, .claimed⟩ ∈ new

theorem restart_slots (b : WriteBuffer) (length : Nat) :
    (b.restart length).slots = b.slots ∧ (b.restart length).nextSlot = b.nextSlot := by
  unfold restart; split <;> exact ⟨rfl, rfl⟩

/-- Space is refused where the ring, restarted or not, has too little of it, else taken behind its
slots. -/
theorem reserve_cases {b after : WriteBuffer} {length : Nat} {r : Except LogError (Nat × Nat)}
    (h : (reserve length).run b = (r, after)) :
    (∃ e, r = .error e ∧ after = b.restart length) ∨
      ((b.restart length).used + (b.restart length).paddingFor length + length
          ≤ (b.restart length).capacity ∧
        ∃ padded, padded = (if 0 < (b.restart length).paddingFor length then
            (b.restart length).push ((b.restart length).paddingFor length) .padding
          else b.restart length) ∧
          r = .ok (padded.nextSlot, padded.tail) ∧
          after = { padded.push length .claimed with outstanding := padded.outstanding + 1 }) := by
  unfold Attempt.run reserve at h
  dsimp only at h
  split at h
  · simp only [Prod.mk.injEq] at h
    obtain ⟨rfl, rfl⟩ := h
    exact .inl ⟨_, rfl, rfl⟩
  · next hroom =>
    simp only [Prod.mk.injEq] at h
    obtain ⟨rfl, rfl⟩ := h
    exact .inr ⟨Nat.le_of_not_lt hroom, _, rfl, rfl, rfl⟩

theorem reserve_error {b after : WriteBuffer} {length : Nat} {e : LogError}
    (h : (reserve length).run b = (.error e, after)) :
    after.slots = b.slots ∧ after.nextSlot = b.nextSlot := by
  obtain ⟨_, -, rfl⟩ | ⟨-, _, -, hok, -⟩ := reserve_cases h
  · exact restart_slots b length
  · simp at hok

theorem reserve_ok {b after : WriteBuffer} {length slot offset : Nat}
    (h : (reserve length).run b = (.ok (slot, offset), after)) :
    ∃ new, b.Claimed after slot length new := by
  obtain ⟨hslots, hnext⟩ := restart_slots b length
  obtain ⟨_, hbad, -⟩ | ⟨-, padded, hpadded, hok, rfl⟩ := reserve_cases h
  · simp at hbad
  · generalize b.restart length = restarted at hslots hnext hpadded
    simp only [Except.ok.injEq, Prod.mk.injEq] at hok
    obtain ⟨rfl, -⟩ := hok
    subst hpadded
    split
    · -- the slot comes behind padding
      have hnew : ((restarted.push (restarted.paddingFor length) .padding).push length
          .claimed).slots = b.slots ++ [⟨b.nextSlot, restarted.paddingFor length, .padding⟩,
            ⟨b.nextSlot + 1, length, .claimed⟩] := by
        simp [WriteBuffer.push, hslots, hnext]
      refine ⟨_, hnew, rfl, fun hn => hn.append hnew ?_ ?_, ?_, ?_, ?_⟩
      · simp [WriteBuffer.push, hnext]
      · intro i hi
        simp only [List.length_cons, List.length_nil] at hi
        rcases i with _ | _ | i
        · rfl
        · rfl
        · omega
      · simp [WriteBuffer.push, hnext]
      · rw [show (restarted.push (restarted.paddingFor length) .padding).nextSlot
          = b.nextSlot + 1 from congrArg (· + 1) hnext]
        rfl
      · simp [WriteBuffer.push, hnext]
    · have hnew : (restarted.push length .claimed).slots
          = b.slots ++ [⟨b.nextSlot, length, .claimed⟩] := by
        simp [WriteBuffer.push, hslots, hnext]
      refine ⟨_, hnew, rfl, fun hn => hn.append hnew ?_ ?_, ?_, ?_, ?_⟩
      · simp [WriteBuffer.push, hnext]
      · intro i hi
        simp only [List.length_cons, List.length_nil] at hi
        obtain rfl : i = 0 := by omega
        rfl
      · simp [hnext]
      · simp [entriesOf, Slot.entry?, hnext]
      · simp [hnext]

theorem reserve_backpressure {b after : WriteBuffer} {length : Nat} {e : LogError}
    (h : (reserve length).run b = (.error e, after)) :
    ∃ requested available, e = .backpressure requested available := by
  unfold Attempt.run reserve at h
  dsimp only at h
  split at h
  · simp only [Prod.mk.injEq, Except.error.injEq] at h
    exact ⟨_, _, h.1.symm⟩
  · simp at h

theorem checkLength_eq_ok_iff {b : WriteBuffer} {length : Nat} :
    b.checkLength length = .ok () ↔ 0 < length ∧ length ≤ b.maxFragment := by
  unfold checkLength
  by_cases hzero : length = 0
  · simp [hzero]
  · by_cases hlong : b.maxFragment < length
    · simp [hzero, hlong]
    · simp [hzero, hlong]
      omega

/-- An open buffer and a record that is not too long for it: whether there is space is the only
question. -/
theorem tryClaim_run {b : WriteBuffer} {length : Nat} (hopen : b.closed = false)
    (hlength : b.checkLength length = .ok ()) :
    (tryClaim length).run b = match (reserve (Frame.lengthFor length)).run b with
      | (.error e, after) => (.error e, after)
      | (.ok (slot, offset), after) => (.ok ⟨slot, offset, List.replicate length 0⟩, after) := by
  unfold Attempt.run tryClaim
  simp only [hlength, hopen]
  rfl

/-- A claim is refused, or space is asked for its frame. -/
theorem tryClaim_cases {b after : WriteBuffer} {length : Nat} {r : Except LogError Claim}
    (h : (tryClaim length).run b = (r, after)) :
    (∃ e, r = .error e ∧ after = b) ∨
      (∃ e, r = .error e ∧ (reserve (Frame.lengthFor length)).run b = (.error e, after)) ∨
      (0 < length ∧ length ≤ b.maxFragment ∧ ∃ slot offset,
        r = .ok ⟨slot, offset, List.replicate length 0⟩ ∧
          (reserve (Frame.lengthFor length)).run b = (.ok (slot, offset), after)) := by
  unfold Attempt.run tryClaim at h
  split at h
  · simp only [Prod.mk.injEq] at h
    obtain ⟨rfl, rfl⟩ := h
    exact .inl ⟨_, rfl, rfl⟩
  · next hlen =>
    have hlength := checkLength_eq_ok_iff.1 hlen
    split at h
    · simp only [Prod.mk.injEq] at h
      obtain ⟨rfl, rfl⟩ := h
      exact .inl ⟨_, rfl, rfl⟩
    · split at h
      · next hr =>
        simp only [Prod.mk.injEq] at h
        obtain ⟨rfl, rfl⟩ := h
        exact .inr (.inl ⟨_, rfl, hr⟩)
      · next hr =>
        simp only [Prod.mk.injEq] at h
        obtain ⟨rfl, rfl⟩ := h
        exact .inr (.inr ⟨hlength.1, hlength.2, _, _, rfl, hr⟩)

/-! ## On which terms claims are taken -/

/-- Neither opened nor shut, and as large as it was. -/
structure SameTerms (b after : WriteBuffer) : Prop where
  capacity : after.capacity = b.capacity
  maxFragment : after.maxFragment = b.maxFragment
  closed : after.closed = b.closed

theorem SameTerms.refl (b : WriteBuffer) : b.SameTerms b := ⟨rfl, rfl, rfl⟩

theorem SameTerms.trans {b c d : WriteBuffer} (h : b.SameTerms c) (h' : c.SameTerms d) :
    b.SameTerms d :=
  ⟨h'.capacity.trans h.capacity, h'.maxFragment.trans h.maxFragment, h'.closed.trans h.closed⟩

theorem restart_terms (b : WriteBuffer) (length : Nat) : b.SameTerms (b.restart length) := by
  unfold restart
  split
  · exact ⟨rfl, rfl, rfl⟩
  · exact .refl b

theorem finish_terms (b : WriteBuffer) (slot : Nat) (outcome : SlotState) :
    b.SameTerms (b.finish slot outcome) := by
  unfold finish setState
  dsimp only
  split
  · exact ⟨rfl, rfl, rfl⟩
  · split
    · exact ⟨rfl, rfl, rfl⟩
    · exact ⟨rfl, rfl, rfl⟩

theorem reserve_terms {b after : WriteBuffer} {length : Nat} {r : Except LogError (Nat × Nat)}
    (h : (reserve length).run b = (r, after)) : b.SameTerms after := by
  obtain ⟨e, -, rfl⟩ | ⟨-, padded, rfl, -, rfl⟩ := reserve_cases h
  · exact restart_terms ..
  · refine (restart_terms b length).trans ?_
    split
    · exact ⟨rfl, rfl, rfl⟩
    · exact ⟨rfl, rfl, rfl⟩

theorem tryClaim_terms {b after : WriteBuffer} {length : Nat} {r : Except LogError Claim}
    (h : (tryClaim length).run b = (r, after)) : b.SameTerms after := by
  obtain ⟨e, -, rfl⟩ | ⟨e, -, hr⟩ | ⟨-, -, slot, offset, -, hr⟩ := tryClaim_cases h
  · exact .refl _
  · exact reserve_terms hr
  · exact reserve_terms hr

/-! ## Claims that are made -/

theorem tryClaim_error {b after : WriteBuffer} {length : Nat} {e : LogError}
    (h : (tryClaim length).run b = (.error e, after)) :
    after.slots = b.slots ∧ after.nextSlot = b.nextSlot := by
  obtain ⟨_, -, rfl⟩ | ⟨_, -, hr⟩ | ⟨-, -, _, _, hok, -⟩ := tryClaim_cases h
  · exact ⟨rfl, rfl⟩
  · exact reserve_error hr
  · simp at hok

/-- A claim is the newest entry; its payload has the length that was asked for. -/
theorem tryClaim_ok {b after : WriteBuffer} {length : Nat} {claim : Claim}
    (h : (tryClaim length).run b = (.ok claim, after)) :
    (∃ reserved new, b.Claimed after claim.slot reserved new) ∧
      claim.payload.length = length ∧ 0 < length ∧ length ≤ b.maxFragment := by
  obtain ⟨_, hbad, -⟩ | ⟨_, hbad, -⟩ | ⟨hpos, hmax, slot, offset, hok, hr⟩ := tryClaim_cases h
  · simp at hbad
  · simp at hbad
  · simp only [Except.ok.injEq] at hok
    subst hok
    exact ⟨⟨_, reserve_ok hr⟩, by simp, hpos, hmax⟩

/-! ## Ending a claim -/

/-- With numbered slots, only the claimed slot of this number changes. -/
theorem slots_finish {b : WriteBuffer} (hn : b.Numbered) {slot : Nat}
    (h : ∃ s ∈ b.slots, s.id = slot ∧ s.state = .claimed) (outcome : SlotState) :
    (b.finish slot outcome).slots = b.slots.map (Slot.finish slot outcome) := by
  obtain ⟨s, hs, rfl, hclaimed⟩ := h
  obtain ⟨k, hk, rfl⟩ := List.getElem_of_mem hs
  have hne : b.slots ≠ [] := List.ne_nil_of_mem hs
  obtain ⟨first, rest, hslots⟩ := List.exists_cons_of_ne_nil hne
  have h0 := hn 0 (by omega)
  have hfirst : b.slots[0].id = first.id := by simp [hslots]
  have hkid := hn k hk
  have hle : ¬ b.slots[k].id < first.id := by omega
  have hindex : b.slots[k].id - first.id = k := by omega
  have hset : (b.finish b.slots[k].id outcome).slots
      = b.slots.modify k ({ · with state := outcome }) := by
    simp only [WriteBuffer.finish, setState]
    split
    · next hnil => exact absurd hnil hne
    · next f r hcons =>
      rw [hslots, List.cons.injEq] at hcons
      obtain ⟨rfl, -⟩ := hcons
      rw [if_neg hle, hindex]
  rw [hset]
  apply List.ext_getElem
  · simp
  · intro i hi hi'
    rw [List.length_modify] at hi
    have hiid := hn i hi
    rw [List.getElem_modify, List.getElem_map, Slot.finish]
    by_cases hik : k = i
    · subst hik
      simp [hclaimed]
    · rw [if_neg hik, if_neg]
      omega

theorem nextSlot_finish (b : WriteBuffer) (slot : Nat) (outcome : SlotState) :
    (b.finish slot outcome).nextSlot = b.nextSlot := by
  simp only [WriteBuffer.finish, setState]
  split
  · rfl
  · split <;> rfl

theorem Numbered.finish {b : WriteBuffer} (hn : b.Numbered) {slot : Nat} {outcome : SlotState}
    (h : ∃ s ∈ b.slots, s.id = slot ∧ s.state = .claimed) : (b.finish slot outcome).Numbered := by
  intro i hi
  have hs := slots_finish hn h outcome
  have hi' : i < b.slots.length := by rw [hs, List.length_map] at hi; exact hi
  have := hn i hi'
  simp only [hs, nextSlot_finish, List.getElem_map, Slot.id_finish, List.length_map]
  omega

/-- The fate that a slot's state stands for. -/
theorem entriesOf_finish {slots : List Slot} {slot : Nat} {state : SlotState} {fate : Fate}
    (h : Slot.entry? ⟨slot, 0, state⟩ = some ⟨slot, fate⟩) :
    entriesOf (slots.map (Slot.finish slot state))
      = (entriesOf slots).map (ClaimEntry.finish slot fate) := by
  unfold entriesOf
  rw [List.filterMap_map, List.map_filterMap]
  congr 1
  funext s
  obtain ⟨id, reserved, st⟩ := s
  by_cases hc : id = slot ∧ st = .claimed
  · obtain ⟨rfl, rfl⟩ := hc
    simpa [Slot.finish, Slot.entry?, ClaimEntry.finish] using h
  · cases st <;> simp_all [Slot.finish, Slot.entry?, ClaimEntry.finish]

/-! ## Draining -/

/-- What gathering adds to a block: the payloads of some slots at the front, none of them held. -/
theorem gather_spec (max : Nat) (slots : List Slot) (block : DrainBlock) :
    ∃ n, n ≤ slots.length ∧ (gather max slots block).slotCount = block.slotCount + n ∧
      (gather max slots block).fragments
        = block.fragments ++ payloadsOf (entriesOf (slots.take n)) ∧ Ended (slots.take n) := by
  induction slots generalizing block with
  | nil => exact ⟨0, by simp [gather, entriesOf, payloadsOf, Ended]⟩
  | cons slot rest ih =>
    have hnone : ∃ n, n ≤ (slot :: rest).length ∧ block.slotCount = block.slotCount + n ∧
        block.fragments = block.fragments
          ++ payloadsOf (entriesOf ((slot :: rest).take n)) ∧ Ended ((slot :: rest).take n) :=
      ⟨0, by simp [entriesOf, payloadsOf, Ended]⟩
    have hsome : ∀ added : DrainBlock, added.slotCount = block.slotCount + 1 →
        added.fragments = block.fragments ++ payloadsOf (entriesOf [slot]) →
        slot.state ≠ .claimed →
        ∃ n, n ≤ (slot :: rest).length ∧
          (gather max rest added).slotCount = block.slotCount + n ∧
          (gather max rest added).fragments = block.fragments
            ++ payloadsOf (entriesOf ((slot :: rest).take n)) ∧ Ended ((slot :: rest).take n) := by
      intro added hcount hfragments hstate
      obtain ⟨n, hn, hc, hf, he⟩ := ih added
      refine ⟨n + 1, by simpa using hn, by omega, ?_, ?_⟩
      · have hcons : (slot :: rest).take (n + 1) = [slot] ++ rest.take n := rfl
        rw [hf, hfragments, hcons, entriesOf_append, payloadsOf_append, List.append_assoc]
      · intro s hs
        rcases List.mem_cons.1 hs with rfl | hs
        · exact hstate
        · exact he s hs
    unfold gather
    split
    · exact hnone
    · next hstate =>
      exact hsome _ rfl (by simp [DrainBlock.skip, entriesOf, Slot.entry?, hstate, payloadsOf])
        (by simp [hstate])
    · next hstate =>
      exact hsome _ rfl (by simp [DrainBlock.skip, entriesOf, Slot.entry?, hstate, payloadsOf,
        ClaimEntry.payload?]) (by simp [hstate])
    · next payload hstate =>
      split
      · exact hsome _ rfl (by simp [DrainBlock.add, entriesOf, Slot.entry?, hstate, payloadsOf,
          ClaimEntry.payload?]) (by simp [hstate])
      · exact hnone

theorem pollBlock_spec {b : WriteBuffer} {max : Nat} {block : DrainBlock}
    (h : b.pollBlock max = some block) :
    block.fragments = payloadsOf (entriesOf (b.slots.take block.slotCount)) ∧
      Ended (b.slots.take block.slotCount) := by
  obtain ⟨n, -, hc, hf, he⟩ := gather_spec max b.slots {}
  simp only [pollBlock] at h
  split at h
  · simp at h
  · simp only [Option.some.injEq] at h
    subst h
    rw [Nat.zero_add] at hc
    rw [hc]
    exact ⟨hf, he⟩

/-- A block that has no fragment yet takes the first payload it comes to. -/
theorem gather_ne_nil (max : Nat) (run more : List Slot) (block : DrainBlock) (he : Ended run)
    (h : block.fragments ≠ [] ∨ payloadsOf (entriesOf run) ≠ []) :
    (gather max (run ++ more) block).fragments ≠ [] := by
  induction run generalizing block with
  | nil =>
    obtain ⟨n, -, -, hf, -⟩ := gather_spec max more block
    rw [List.nil_append, hf]
    rcases h with h | h
    · exact fun hc => h (List.append_eq_nil_iff.1 hc).1
    · exact absurd rfl h
  | cons slot rest ih =>
    have hrest : Ended rest := fun s hs => he s (List.mem_cons_of_mem _ hs)
    rw [List.cons_append, gather]
    split
    · next hstate => exact absurd hstate (he slot List.mem_cons_self)
    · next hstate =>
      refine ih _ hrest (h.imp id fun hp => ?_)
      simpa [entriesOf, Slot.entry?, hstate] using hp
    · next hstate =>
      refine ih _ hrest (h.imp id fun hp => ?_)
      simpa [entriesOf, Slot.entry?, hstate, payloadsOf, ClaimEntry.payload?] using hp
    · next payload hstate =>
      split
      · exact ih _ hrest (.inl (by simp [DrainBlock.add]))
      · next hfits =>
        intro hnil
        exact hfits (.inl hnil)

theorem pollBlock_of_drainable {b : WriteBuffer} (h : Drainable b.slots) (max : Nat) :
    ∃ block, b.pollBlock max = some block ∧ block.fragments ≠ [] := by
  obtain ⟨run, more, hs, he, hp⟩ := h
  have hne := gather_ne_nil max run more {} he (.inr hp)
  rw [← hs] at hne
  obtain ⟨n, -, hc, hf, -⟩ := gather_spec max b.slots {}
  refine ⟨gather max b.slots {}, ?_, hne⟩
  simp only [pollBlock]
  rw [if_neg]
  intro hzero
  rw [Nat.zero_add, hzero] at hc
  rw [← hc] at hf
  exact hne (by rw [hf]; rfl)

/-- Nothing can be drained only where the slot at the front is held or there is none. -/
theorem pollBlock_eq_none {b : WriteBuffer} {max : Nat} (h : b.pollBlock max = none) :
    ∀ slot ∈ b.slots.head?, slot.state = .claimed := by
  intro slot hslot
  obtain ⟨rest, hslots⟩ := List.head?_eq_some_iff.1 hslot
  refine Decidable.byContradiction fun hfree => ?_
  have hone (added : DrainBlock) (hadded : added.slotCount = 1) :
      0 < (gather max rest added).slotCount := by
    have := (slotCount_gather max rest added).1
    omega
  have hsome : 0 < (gather max b.slots {}).slotCount := by
    rw [hslots, gather]
    split
    · next hclaimed => exact absurd hclaimed hfree
    · exact hone _ rfl
    · exact hone _ rfl
    · rw [if_pos (.inl rfl)]
      exact hone _ rfl
  unfold pollBlock at h
  dsimp only at h
  rw [if_neg (by omega)] at h
  simp at h

/-- The frames of a block are frames of payloads that are in the buffer. -/
theorem buffered_of_pollBlock {b : WriteBuffer} {max : Nat} {block : DrainBlock}
    (h : b.pollBlock max = some block) (hne : block.fragments ≠ []) (position : Int) :
    Buffered b.slots (Frame.encodeRun position block.fragments) := by
  obtain ⟨hf, he⟩ := pollBlock_spec h
  exact ⟨b.slots.take block.slotCount, b.slots.drop block.slotCount, position,
    (List.take_append_drop ..).symm, he, hf ▸ hne, hf ▸ List.prefix_rfl⟩

end WriteBuffer

end PartitionLog
