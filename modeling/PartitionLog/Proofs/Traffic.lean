import PartitionLog.Proofs.Booking
import PartitionLog.Proofs.Ring

/-!
# A write buffer in use

`Traffic` is a buffer with the producers' claims and a drainer's blocks. `Traffic.act` carries out one
move: a producer claims, commits or aborts (a claim that is dropped is aborted), the drainer polls a
block and later releases it, or the buffer is shut or reopened; moves of different parties come in any
order. A claim that waits for space is a claim that is tried again. The ledger `fates` is written by
the producers' moves alone. However the moves come, the slots stay in the ring (`ring_sound`); and if
the drainer releases just what it polled, the payloads leave in the order of the claims
(`drained_in_order`).
-/

namespace PartitionLog

inductive Move where
  | claim (length : Nat)
  /-- Fill and commit a claim that is held. -/
  | commit (index : Nat) (payload : Bytes)
  | abort (index : Nat)
  | poll (max : Nat)
  /-- Release the block that was polled. -/
  | settle
  /-- Release slots, whatever is in them. -/
  | release (count : Nat)
  | shut
  | reopen
  deriving DecidableEq, Repr

/-- The drainer does not look at what it releases. -/
def Move.IsBlind : Move → Prop
  | release _ => True
  | _ => False

instance : (move : Move) → Decidable move.IsBlind
  | .release _ => isTrue trivial
  | .claim _ | .commit _ _ | .abort _ | .poll _ | .settle | .shut | .reopen => isFalse id

structure Traffic where
  buffer : WriteBuffer
  held : List Claim := []
  /-- All claims, as they were made, oldest first. -/
  made : List Claim := []
  /-- What became of them. -/
  fates : List ClaimEntry := []
  /-- The block that was polled last, if it was not released yet. -/
  polled : Option DrainBlock := none
  /-- The fragments of the blocks that were released, oldest first. -/
  drained : List Bytes := []

namespace Traffic

/-- A held claim ended so. -/
def endClaim (t : Traffic) (index : Nat) (claim : Claim) (fate : Fate) (b : WriteBuffer) : Traffic :=
  { t with
    buffer := b
    held := t.held.eraseIdx index
    fates := t.fates.map (ClaimEntry.finish claim.slot fate) }

def act (t : Traffic) : Move → Traffic
  | .claim length =>
    match (WriteBuffer.tryClaim length).run t.buffer with
    | (.error _, b) => { t with buffer := b }
    | (.ok claim, b) =>
      { t with
        buffer := b
        held := t.held ++ [claim]
        made := t.made ++ [claim]
        fates := t.fates ++ [⟨claim.slot, .held⟩] }
  | .commit index payload =>
    match t.held[index]? with
    | none => t
    | some claim =>
      if payload.length = claim.payload.length then
        t.endClaim index claim (.committed payload)
          (t.buffer.commit { claim with payload := payload })
      else t
  | .abort index =>
    match t.held[index]? with
    | none => t
    | some claim => t.endClaim index claim .aborted (t.buffer.abort claim)
  | .poll max => { t with polled := t.buffer.pollBlock max }
  | .settle =>
    match t.polled with
    | none => t
    | some block =>
      { t with
        buffer := t.buffer.release block.slotCount
        polled := none
        drained := t.drained ++ block.fragments }
  | .release count => { t with buffer := t.buffer.release count }
  | .shut => { t with buffer := t.buffer.shut }
  | .reopen => { t with buffer := t.buffer.reopen }

def after (t : Traffic) (moves : List Move) : Traffic := moves.foldl act t

/-- A buffer that nobody used before. -/
def start (b : WriteBuffer) : Traffic where
  buffer := b

/-- What holds at the start and is kept by every move of these holds after all of them. -/
theorem after_induction {P : Traffic → Prop} {t : Traffic} {moves : List Move} (h : P t)
    (hact : ∀ move ∈ moves, ∀ u, P u → P (u.act move)) : P (t.after moves) := by
  induction moves generalizing t with
  | nil => exact h
  | cons move rest ih =>
    exact ih (hact move List.mem_cons_self t h) fun m hm => hact m (List.mem_cons_of_mem _ hm)

theorem create_fresh {b : WriteBuffer} {capacity maxFragment : Nat}
    (h : WriteBuffer.create capacity maxFragment = .ok b) :
    b.capacity = capacity ∧ b.slots = [] ∧ b.outstanding = 0 := by
  unfold WriteBuffer.create at h
  split at h
  · simp at h
  · simp only [Except.ok.injEq] at h
    subst h
    exact ⟨rfl, rfl, rfl⟩

variable {t : Traffic} {b : WriteBuffer} {capacity maxFragment : Nat} {moves : List Move}

/-! ## Slots in the ring -/

/-- The ring, the claims that were made from it, and those that are held. -/
structure Seated (capacity : Nat) (t : Traffic) : Prop where
  size : t.buffer.capacity = capacity
  ring : t.buffer.Ring
  counted : t.buffer.outstanding = t.held.length
  below : ∀ c ∈ t.made, c.slot < t.buffer.nextSlot
  seats : ∀ c ∈ t.made, t.buffer.Seats c

theorem Seated.claim (h : t.Seated capacity) (length : Nat) :
    (t.act (.claim length)).Seated capacity := by
  unfold Traffic.act
  dsimp only
  split
  · next hr =>
    obtain ⟨hgrown, hsame⟩ := WriteBuffer.tryClaim_refused h.ring hr
    have hnext := hgrown.next
    exact ⟨hgrown.capacity.trans h.size, hgrown.ring, hsame.trans h.counted,
      fun c hc => hnext.symm ▸ h.below c hc,
      fun c hc => hgrown.seats (h.seats c hc) (h.below c hc)⟩
  · next claim b hr =>
    obtain ⟨new, hgrown, hseats, hlt, hmore⟩ := WriteBuffer.tryClaim_granted h.ring hr
    have hnext := hgrown.next
    refine ⟨hgrown.capacity.trans h.size, hgrown.ring, ?_, fun c hc => ?_, fun c hc => ?_⟩
    · rw [hmore, h.counted, List.length_append, List.length_singleton]
    · rcases List.mem_append.1 hc with hold | hnew
      · have := h.below c hold
        dsimp only
        omega
      · obtain rfl := List.mem_singleton.1 hnew
        exact hlt
    · rcases List.mem_append.1 hc with hold | hnew
      · exact hgrown.seats (h.seats c hold) (h.below c hold)
      · obtain rfl := List.mem_singleton.1 hnew
        exact hseats

/-- A claim can be ended when its slot was released before. -/
theorem Seated.endClaim (h : t.Seated capacity) {index : Nat} {claim : Claim} {fate : Fate}
    {outcome : SlotState} (hc : t.held[index]? = some claim) :
    (t.endClaim index claim fate (t.buffer.finish claim.slot outcome)).Seated capacity := by
  have hindex : index < t.held.length := (List.getElem?_eq_some_iff.1 hc).1
  have hsize := (WriteBuffer.finish_terms t.buffer claim.slot outcome).capacity
  have hnext := WriteBuffer.nextSlot_finish t.buffer claim.slot outcome
  have hless := WriteBuffer.outstanding_finish t.buffer claim.slot outcome
  refine ⟨hsize.trans h.size, (h.ring.finish claim.slot outcome).1, ?_,
    fun c hm => hnext.symm ▸ h.below c hm,
    fun c hm => (h.seats c hm).finish h.ring claim.slot outcome⟩
  simp only [Traffic.endClaim, hless, h.counted, List.length_eraseIdx_of_lt hindex]

theorem Seated.release (h : t.Seated capacity) (count : Nat) :
    (t.act (.release count)).Seated capacity :=
  ⟨h.size, h.ring.release count, h.counted, h.below, fun c hc => (h.seats c hc).release count⟩

theorem Seated.act (h : t.Seated capacity) (move : Move) : (t.act move).Seated capacity := by
  cases move with
  | claim length => exact h.claim length
  | commit index payload =>
    unfold Traffic.act
    dsimp only
    split
    · exact h
    · next claim hc =>
      split
      · exact h.endClaim hc
      · exact h
  | abort index =>
    unfold Traffic.act
    dsimp only
    split
    · exact h
    · next claim hc => exact h.endClaim hc
  | poll max => exact ⟨h.size, h.ring, h.counted, h.below, h.seats⟩
  | settle =>
    unfold Traffic.act
    dsimp only
    split
    · exact h
    · next block _ =>
      have hreleased := h.release block.slotCount
      exact ⟨hreleased.size, hreleased.ring, hreleased.counted, hreleased.below,
        hreleased.seats⟩
  | release count => exact h.release count
  | shut =>
    exact ⟨h.size, h.ring.congr rfl rfl rfl rfl rfl, h.counted, h.below, h.seats⟩
  | reopen =>
    exact ⟨h.size, h.ring.congr rfl rfl rfl rfl rfl, h.counted, h.below, h.seats⟩

/-- The places of slots and claims in a ring of so many bytes. -/
structure RingSound (capacity : Nat) (t : Traffic) : Prop where
  size : t.buffer.capacity = capacity
  spans : t.buffer.tail = t.buffer.head + reservedBy t.buffer.slots
  fits : t.buffer.used ≤ capacity
  numbered : t.buffer.Numbered
  /-- A claim starts behind the slots before its own, as long as that is in the ring. -/
  starts : ∀ c ∈ t.made, ∀ i (h : i < t.buffer.slots.length), t.buffer.slots[i].id = c.slot →
    c.offset = t.buffer.head + reservedBy (t.buffer.slots.take i) ∧
      t.buffer.slots[i].reserved = Frame.lengthFor c.payload.length
  whole : ∀ i (h : i < t.buffer.slots.length),
    t.buffer.physical (t.buffer.offsetOf i) + t.buffer.slots[i].reserved ≤ capacity
  disjoint : ∀ i j byte, t.buffer.Occupies i byte → t.buffer.Occupies j byte → i = j
  outstanding : t.buffer.outstanding = t.held.length
  closes : ∀ grace, t.buffer.shut.waited grace = .ok () ↔ t.held = []

/-- Whatever is claimed, ended, polled and released, and in whichever order. -/
theorem ring_sound (h : WriteBuffer.create capacity maxFragment = .ok b) :
    RingSound capacity ((start b).after moves) := by
  obtain ⟨hcapacity, -, hidle⟩ := create_fresh h
  have hstart : (start b).Seated capacity :=
    ⟨hcapacity, WriteBuffer.ring_of_create h, hidle, by simp [start], by simp [start]⟩
  have hseated : ((start b).after moves).Seated capacity :=
    after_induction hstart fun move _ u hu => hu.act move
  generalize (start b).after moves = t at hseated
  have hsize := hseated.size
  have hcounted := hseated.counted
  exact {
    size := hsize
    spans := hseated.ring.spans
    fits := hseated.ring.used_eq ▸ hsize ▸ hseated.ring.fits
    numbered := hseated.ring.numbered
    starts := hseated.seats
    whole := hsize ▸ hseated.ring.whole
    disjoint := fun i j byte => hseated.ring.occupied_once
    outstanding := hcounted
    closes := by
      intro grace
      rw [WriteBuffer.waited_eq_ok_iff, ← List.length_eq_zero_iff, ← hcounted]
      rfl }

/-- Slots on both sides of padding, one of which is released before its claim is given back. -/
def wrapped : List Move :=
  [.claim 16, .claim 4, .commit 0 (List.replicate 16 7), .poll 100, .settle, .claim 4, .release 1,
    .abort 0]

theorem ring_sound_wrapped :
    WriteBuffer.create 64 16 = .ok { capacity := 64, maxFragment := 16 } ∧
      ((start { capacity := 64, maxFragment := 16 }).after wrapped).buffer.slots
        = [⟨2, 12, .padding⟩, ⟨3, 20, .claimed⟩] ∧
      RingSound 64 ((start { capacity := 64, maxFragment := 16 }).after wrapped) := by
  have hcreate : WriteBuffer.create 64 16 = .ok { capacity := 64, maxFragment := 16 } := rfl
  exact ⟨hcreate, by decide +kernel, ring_sound hcreate⟩

/-! ## Payloads in the order of the claims -/

/-- The claims whose slots were released are the first ones, and a block that was polled holds the
next payloads. -/
structure Orderly (t : Traffic) : Prop where
  booked : Booked t.buffer t.held t.fates
  ledger : ∃ done, t.fates = done ++ t.buffer.entries ∧ (∀ e ∈ done, e.fate ≠ .held) ∧
    t.drained = payloadsOf done
  pending : ∀ block, t.polled = some block → block.slotCount ≤ t.buffer.slots.length ∧
    block.fragments = payloadsOf (entriesOf (t.buffer.slots.take block.slotCount)) ∧
      Ended (t.buffer.slots.take block.slotCount)

/-- New slots come behind the block that was polled. -/
theorem pending_append {slots new : List Slot} {block : DrainBlock}
    (h : block.slotCount ≤ slots.length ∧
      block.fragments = payloadsOf (entriesOf (slots.take block.slotCount)) ∧
        Ended (slots.take block.slotCount)) :
    block.slotCount ≤ (slots ++ new).length ∧
      block.fragments = payloadsOf (entriesOf ((slots ++ new).take block.slotCount)) ∧
        Ended ((slots ++ new).take block.slotCount) := by
  obtain ⟨hle, hrest⟩ := h
  rw [List.take_append_of_le_length hle]
  exact ⟨by rw [List.length_append]; omega, hrest⟩

theorem Orderly.claim (h : t.Orderly) (length : Nat) : (t.act (.claim length)).Orderly := by
  obtain ⟨done, hfates, hended, hdrained⟩ := h.ledger
  unfold Traffic.act
  dsimp only
  split
  · next b hr =>
    obtain ⟨hslots, hnext⟩ := WriteBuffer.tryClaim_error hr
    have hentries : b.entries = t.buffer.entries := congrArg entriesOf hslots
    exact ⟨h.booked.of_slots hslots hnext, ⟨done, hentries ▸ hfates, hended, hdrained⟩,
      hslots ▸ h.pending⟩
  · next claim b hr =>
    obtain ⟨⟨reserved, new, hclaimed⟩, hlength, hpos, -⟩ := WriteBuffer.tryClaim_ok hr
    have hne : claim.payload ≠ [] := by
      intro hnil
      rw [hnil] at hlength
      exact absurd hpos (by rw [← hlength]; exact Nat.lt_irrefl 0)
    have hentries : b.entries = t.buffer.entries ++ [⟨claim.slot, .held⟩] := by
      rw [WriteBuffer.entries, hclaimed.slots, entriesOf_append, hclaimed.entries]
      rfl
    refine ⟨h.booked.claim hclaimed hne, ⟨done, ?_, hended, hdrained⟩, fun block hb => ?_⟩
    · dsimp only
      rw [hentries, hfates, List.append_assoc]
    · dsimp only
      rw [hclaimed.slots]
      exact pending_append (h.pending block hb)

theorem Orderly.endClaim (h : t.Orderly) {index : Nat} {claim : Claim} {fate : Fate}
    {outcome : SlotState} (hc : t.held[index]? = some claim)
    (hfate : Slot.entry? ⟨claim.slot, 0, outcome⟩ = some ⟨claim.slot, fate⟩) :
    (t.endClaim index claim fate (t.buffer.finish claim.slot outcome)).Orderly := by
  obtain ⟨done, hfates, hended, hdrained⟩ := h.ledger
  obtain ⟨hslot, -⟩ := h.booked.claimed claim (List.mem_of_getElem? hc)
  have hslots := WriteBuffer.slots_finish h.booked.numbered hslot outcome
  refine ⟨h.booked.finish hc, ⟨done, ?_, hended, hdrained⟩, fun block hb => ?_⟩
  · have hdone : done.map (ClaimEntry.finish claim.slot fate) = done := by
      rw [List.map_congr_left fun e he => ClaimEntry.finish_of_not_held (hended e he), List.map_id']
    simp only [Traffic.endClaim, WriteBuffer.entries, hfates, hslots, List.map_append, hdone,
      WriteBuffer.entriesOf_finish hfate]
  · obtain ⟨hle, hfragments, hrun⟩ := h.pending block hb
    simp only [Traffic.endClaim, hslots, List.length_map, ← List.map_take, map_finish_of_ended hrun]
    exact ⟨hle, hfragments, hrun⟩

theorem Orderly.settle (h : t.Orderly) : (t.act .settle).Orderly := by
  unfold Traffic.act
  dsimp only
  split
  · exact h
  · next block hb =>
    obtain ⟨done, hfates, hended, hdrained⟩ := h.ledger
    obtain ⟨-, hfragments, hrun⟩ := h.pending block hb
    refine ⟨h.booked.drop hrun rfl rfl, ⟨done ++ entriesOf (t.buffer.slots.take block.slotCount),
      ?_, fun e he => ?_, ?_⟩, by simp⟩
    · dsimp only
      rw [hfates, List.append_assoc, WriteBuffer.entries_split t.buffer block.slotCount]
      rfl
    · rcases List.mem_append.1 he with hold | hnew
      · exact hended e hold
      · exact not_held_of_ended hrun e hnew
    · dsimp only
      rw [hdrained, hfragments, payloadsOf_append]

theorem Orderly.act (h : t.Orderly) {move : Move} (hmove : ¬ move.IsBlind) :
    (t.act move).Orderly := by
  cases move with
  | claim length => exact h.claim length
  | commit index payload =>
    unfold Traffic.act
    dsimp only
    split
    · exact h
    · next claim hc =>
      split
      · exact h.endClaim hc rfl
      · exact h
  | abort index =>
    unfold Traffic.act
    dsimp only
    split
    · exact h
    · next claim hc => exact h.endClaim hc rfl
  | poll max =>
    refine ⟨h.booked, h.ledger, fun block hb => ?_⟩
    obtain ⟨hfragments, hrun⟩ := WriteBuffer.pollBlock_spec hb
    exact ⟨(WriteBuffer.slotCount_pollBlock hb).2, hfragments, hrun⟩
  | settle => exact h.settle
  | release count => exact absurd trivial hmove
  | shut => exact ⟨h.booked.of_slots rfl rfl, h.ledger, h.pending⟩
  | reopen => exact ⟨h.booked.of_slots rfl rfl, h.ledger, h.pending⟩

structure InOrder (t : Traffic) : Prop where
  /-- What was released, and behind it what is committed and waits, is what was committed. -/
  delivered : t.drained ++ payloadsOf t.buffer.entries = payloadsOf t.fates
  rising : t.fates.Pairwise (·.slot < ·.slot)
  /-- A block holds the payloads of the next claims, and all of these and those before ended. -/
  handed : ∀ max block, t.buffer.pollBlock max = some block → ∃ done run rest,
    t.fates = done ++ run ++ rest ∧ t.drained = payloadsOf done ∧
      block.fragments = payloadsOf run ∧ ∀ e ∈ done ++ run, e.fate ≠ .held

/-- Producers may commit in any order: the drainer gets every payload once, in that of the claims. -/
theorem drained_in_order (h : WriteBuffer.create capacity maxFragment = .ok b)
    (hmoves : ∀ move ∈ moves, ¬ move.IsBlind) : InOrder ((start b).after moves) := by
  obtain ⟨-, hempty, -⟩ := create_fresh h
  have hstart : (start b).Orderly := by
    refine ⟨⟨?_, by simp [start], .nil, .nil, by simp [start]⟩, ⟨[], ?_, by simp, rfl⟩,
      by simp [start]⟩
    · simp [WriteBuffer.Numbered, start, hempty]
    · simp [start, WriteBuffer.entries, hempty, entriesOf]
  have horderly : ((start b).after moves).Orderly :=
    after_induction hstart fun move hm u hu => hu.act (hmoves move hm)
  generalize (start b).after moves = t at horderly
  obtain ⟨done, hfates, hended, hdrained⟩ := horderly.ledger
  refine ⟨?_, horderly.booked.rising, fun max block hb => ?_⟩
  · rw [hdrained, hfates, payloadsOf_append]
  · obtain ⟨hfragments, hrun⟩ := WriteBuffer.pollBlock_spec hb
    refine ⟨done, entriesOf (t.buffer.slots.take block.slotCount),
      entriesOf (t.buffer.slots.drop block.slotCount), ?_, hdrained, hfragments, fun e he => ?_⟩
    · rw [hfates, WriteBuffer.entries_split t.buffer block.slotCount, List.append_assoc]
    · rcases List.mem_append.1 he with hold | hnew
      · exact hended e hold
      · exact not_held_of_ended hrun e hnew

/-- The second claim is committed first, the third one is given back, and another one is made while a
block is polled. -/
def overtaking : List Move :=
  [.claim 1, .claim 2, .claim 3, .commit 1 [2, 2], .poll 100, .settle, .commit 0 [1], .abort 0,
    .poll 17, .claim 1, .shut, .settle, .commit 0 [4]]

theorem drained_in_order_overtaking :
    WriteBuffer.create 128 16 = .ok { capacity := 128, maxFragment := 16 } ∧
      (∀ move ∈ overtaking, ¬ move.IsBlind) ∧
      ((start { capacity := 128, maxFragment := 16 }).after overtaking).drained = [[1]] ∧
      payloadsOf ((start { capacity := 128, maxFragment := 16 }).after overtaking).fates
        = [[1], [2, 2], [4]] ∧
      InOrder ((start { capacity := 128, maxFragment := 16 }).after overtaking) := by
  have hcreate : WriteBuffer.create 128 16 = .ok { capacity := 128, maxFragment := 16 } := rfl
  have hmoves : ∀ move ∈ overtaking, ¬ move.IsBlind := by decide
  exact ⟨hcreate, hmoves, by decide +kernel, by decide +kernel, drained_in_order hcreate hmoves⟩

end Traffic

end PartitionLog
