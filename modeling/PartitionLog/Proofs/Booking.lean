import PartitionLog.Proofs.Usage

/-!
# Claims and the write buffer

`Booked b held claims`: every claim that is held has a claimed slot of its own in `b`, and the claims
were made in the order of their slots. Claiming adds one at the end (`Booked.claim`), ending a claim
changes the entry of its slot only (`Booked.finish`), and freeing slots whose claims have ended
touches none that is held (`Booked.drop`).
-/

namespace PartitionLog

structure Booked (b : WriteBuffer) (held : List Claim) (claims : List ClaimEntry) : Prop where
  numbered : b.Numbered
  claimed : ∀ c ∈ held, (∃ s ∈ b.slots, s.id = c.slot ∧ s.state = .claimed) ∧ c.payload ≠ []
  distinct : held.Pairwise (·.slot ≠ ·.slot)
  rising : claims.Pairwise (·.slot < ·.slot)
  below : ∀ e ∈ claims, e.slot < b.nextSlot

variable {b after : WriteBuffer} {held : List Claim} {claims : List ClaimEntry}

theorem WriteBuffer.Numbered.lt {s : Slot} (hn : b.Numbered) (h : s ∈ b.slots) :
    s.id < b.nextSlot := by
  obtain ⟨k, hk, rfl⟩ := List.getElem_of_mem h
  have := hn k hk
  omega

namespace Booked

theorem claim (h : Booked b held claims) {claim : Claim} {reserved : Nat} {new : List Slot}
    (hc : b.Claimed after claim.slot reserved new) (hne : claim.payload ≠ []) :
    Booked after (held ++ [claim]) (claims ++ [⟨claim.slot, .held⟩]) where
  numbered := hc.numbered h.numbered
  claimed := by
    intro c hmem
    rcases List.mem_append.1 hmem with hold | hnew
    · obtain ⟨⟨s, hs, hslot⟩, hpayload⟩ := h.claimed c hold
      exact ⟨⟨s, hc.slots ▸ List.mem_append_left _ hs, hslot⟩, hpayload⟩
    · obtain rfl := List.mem_singleton.1 hnew
      exact ⟨⟨_, hc.slots ▸ List.mem_append_right _ hc.mem, rfl, rfl⟩, hne⟩
  distinct := by
    refine List.pairwise_append.2 ⟨h.distinct, List.pairwise_singleton .., fun c hold d hd => ?_⟩
    obtain rfl := List.mem_singleton.1 hd
    obtain ⟨⟨s, hs, hslot, -⟩, -⟩ := h.claimed c hold
    have := h.numbered.lt hs
    have := hc.fresh
    omega
  rising := by
    refine List.pairwise_append.2 ⟨h.rising, List.pairwise_singleton .., fun e hold d hd => ?_⟩
    obtain rfl := List.mem_singleton.1 hd
    exact Nat.lt_of_lt_of_le (h.below e hold) hc.fresh
  below := by
    intro e he
    rw [hc.next]
    rcases List.mem_append.1 he with hold | hnew
    · have := h.below e hold
      have := hc.fresh
      omega
    · obtain rfl := List.mem_singleton.1 hnew
      exact Nat.lt_succ_self _

/-- Slots that look the same serve the same claims. -/
theorem of_slots (h : Booked b held claims) (hslots : after.slots = b.slots)
    (hnext : after.nextSlot = b.nextSlot) : Booked after held claims where
  numbered := by
    intro i hi
    have := h.numbered i (hslots ▸ hi)
    simp only [hslots, hnext]
    exact this
  claimed := by rw [hslots]; exact h.claimed
  distinct := h.distinct
  rising := h.rising
  below := by rw [hnext]; exact h.below

/-- Two claims that are held have different slots. -/
theorem slot_ne (h : Booked b held claims) {i j : Nat} {c d : Claim} (hi : held[i]? = some c)
    (hj : held[j]? = some d) (hne : i ≠ j) : c.slot ≠ d.slot := by
  obtain ⟨hil, rfl⟩ := List.getElem?_eq_some_iff.1 hi
  obtain ⟨hjl, rfl⟩ := List.getElem?_eq_some_iff.1 hj
  rcases Nat.lt_or_gt_of_ne hne with hlt | hgt
  · exact List.pairwise_iff_getElem.1 h.distinct i j hil hjl hlt
  · exact (List.pairwise_iff_getElem.1 h.distinct j i hjl hil hgt).symm

theorem finish (h : Booked b held claims) {index : Nat} {claim : Claim} {outcome : SlotState}
    {fate : Fate} (hc : held[index]? = some claim) :
    Booked (b.finish claim.slot outcome) (held.eraseIdx index)
      (claims.map (ClaimEntry.finish claim.slot fate)) := by
  obtain ⟨hslot, -⟩ := h.claimed claim (List.mem_of_getElem? hc)
  have hslots := WriteBuffer.slots_finish h.numbered hslot outcome
  refine ⟨h.numbered.finish hslot, ?_, h.distinct.sublist (List.eraseIdx_sublist ..), ?_, ?_⟩
  · intro c hmem
    obtain ⟨i, hi, hget⟩ := List.mem_eraseIdx_iff_getElem?.1 hmem
    obtain ⟨⟨s, hs, hid, hstate⟩, hpayload⟩ := h.claimed c (List.mem_of_getElem? hget)
    have hother : s.id ≠ claim.slot := hid ▸ h.slot_ne hget hc hi
    refine ⟨⟨s, ?_, hid, hstate⟩, hpayload⟩
    rw [hslots]
    exact List.mem_map.2 ⟨s, hs, if_neg fun hsame => hother hsame.1⟩
  · refine List.pairwise_map.2 (h.rising.imp fun hlt => ?_)
    simpa using hlt
  · intro e he
    obtain ⟨old, hold, rfl⟩ := List.mem_map.1 he
    rw [ClaimEntry.slot_finish, WriteBuffer.nextSlot_finish]
    exact h.below old hold

theorem drop (h : Booked b held claims) {count : Nat}
    (hended : Ended (b.slots.take count)) (hslots : after.slots = b.slots.drop count)
    (hnext : after.nextSlot = b.nextSlot) : Booked after held claims where
  numbered := h.numbered.drop hslots hnext
  claimed := by
    intro c hc
    obtain ⟨⟨s, hs, hslot, hstate⟩, hpayload⟩ := h.claimed c hc
    refine ⟨⟨s, ?_, hslot, hstate⟩, hpayload⟩
    rw [← List.take_append_drop count b.slots] at hs
    rw [hslots]
    exact (List.mem_append.1 hs).resolve_left fun htaken => hended s htaken hstate
  distinct := h.distinct
  rising := h.rising
  below := by rw [hnext]; exact h.below

end Booked

end PartitionLog
