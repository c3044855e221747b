import PartitionLog.Proofs.Cycles
import PartitionLog.Proofs.Guarantees
import PartitionLog.Proofs.PayloadLimits

/-!
# How large blocks get

Gathering stops before a block gets longer than it may, but takes a first payload whatever its
length is, so that draining goes on wherever the slot at the front is not held (`pollBlock_front`,
`drain_goes_on`). That the limit of the settings is kept all the same is due to the claims: none is
longer than a block can hold, and nothing else gets into a buffer (`Run.Capped`). Altogether
`Run.blocks_fit`.
-/

namespace PartitionLog

namespace Slot

/-- Whether the slot has no longer payload than this. -/
def Short (limit : Nat) (s : Slot) : Prop :=
  ∀ payload, s.state = .committed payload → payload.length ≤ limit

end Slot

/-! ## Gathering -/

namespace WriteBuffer

variable {b after : WriteBuffer} {max limit : Nat} {slots : List Slot} {block : DrainBlock}

/-- The bytes that a block counts are those of its frames. -/
theorem frameBytes_gather (position : Int) (max : Nat) (slots : List Slot) (block : DrainBlock)
    (h : block.frameBytes = (Frame.encodeRun position block.fragments).length) :
    (gather max slots block).frameBytes
      = (Frame.encodeRun position (gather max slots block).fragments).length := by
  fun_induction gather max slots block with
  | case1 block => exact h
  | case2 slot rest block hclaimed => exact h
  | case3 slot rest block hpadding ih => exact ih h
  | case4 slot rest block haborted ih => exact ih h
  | case5 slot rest block payload hcommitted hfits ih =>
    refine ih ?_
    simp only [DrainBlock.add, Frame.encodeRun_append, Frame.encodeRun, List.append_nil,
      List.length_append, Frame.length_encode, h]
  | case6 slot rest block payload hcommitted hfull => exact h

/-- No block gets longer than it may, if no payload by itself does. -/
theorem frameBytes_gather_le (hshort : ∀ slot ∈ slots, slot.Short limit)
    (hlimit : Frame.lengthFor limit ≤ max) (hempty : block.fragments = [] → block.frameBytes = 0)
    (h : block.frameBytes ≤ max) : (gather max slots block).frameBytes ≤ max := by
  fun_induction gather max slots block with
  | case1 block => exact h
  | case2 slot rest block hclaimed => exact h
  | case3 slot rest block hpadding ih =>
    exact ih (fun s hs => hshort s (List.mem_cons_of_mem _ hs)) hempty h
  | case4 slot rest block haborted ih =>
    exact ih (fun s hs => hshort s (List.mem_cons_of_mem _ hs)) hempty h
  | case5 slot rest block payload hcommitted hfits ih =>
    refine ih (fun s hs => hshort s (List.mem_cons_of_mem _ hs)) (by simp [DrainBlock.add]) ?_
    have hlength := hshort slot List.mem_cons_self payload hcommitted
    show block.frameBytes + Frame.lengthFor payload.length ≤ max
    rcases hfits with hfirst | hroom
    · rw [hempty hfirst]
      unfold Frame.lengthFor at hlimit ⊢
      omega
    · exact hroom
  | case6 slot rest block payload hcommitted hfull => exact h

/-- The slots before the first claim that is held. -/
def front (slots : List Slot) : List Slot := slots.takeWhile (·.state ≠ .claimed)

/-- The first payload at the front is the first fragment, whatever its length is. -/
theorem head?_gather (max : Nat) (slots : List Slot) (block : DrainBlock) :
    (gather max slots block).fragments.head?
      = (block.fragments ++ payloadsOf (entriesOf (front slots))).head? := by
  fun_induction gather max slots block with
  | case1 block => simp [front, entriesOf, payloadsOf]
  | case2 slot rest block hclaimed => simp [front, hclaimed, entriesOf, payloadsOf]
  | case3 slot rest block hpadding ih =>
    have hfront : payloadsOf (entriesOf (front (slot :: rest)))
        = payloadsOf (entriesOf (front rest)) := by
      simp [front, hpadding, entriesOf, Slot.entry?]
    rw [ih, hfront]
    rfl
  | case4 slot rest block haborted ih =>
    have hfront : payloadsOf (entriesOf (front (slot :: rest)))
        = payloadsOf (entriesOf (front rest)) := by
      simp [front, haborted, entriesOf, payloadsOf, Slot.entry?, ClaimEntry.payload?,
        List.filterMap_cons]
    rw [ih, hfront]
    rfl
  | case5 slot rest block payload hcommitted hfits ih =>
    have hfront : payloadsOf (entriesOf (front (slot :: rest)))
        = payload :: payloadsOf (entriesOf (front rest)) := by
      simp [front, hcommitted, entriesOf, payloadsOf, Slot.entry?, ClaimEntry.payload?]
    rw [ih, hfront, ← List.singleton_append, ← List.append_assoc]
    rfl
  | case6 slot rest block payload hcommitted hfull =>
    obtain ⟨first, others, hsome⟩ := List.exists_cons_of_ne_nil fun hnil => hfull (.inl hnil)
    rw [hsome]
    rfl

/-- Where the slot at the front is not held, some slots can be drained, with the first payload that
comes before a held claim among them. -/
theorem pollBlock_front {slot : Slot} (hslot : b.slots.head? = some slot)
    (hfree : slot.state ≠ .claimed) (max : Nat) :
    ∃ block, b.pollBlock max = some block ∧ 0 < block.slotCount ∧
      block.fragments.head? = (payloadsOf (entriesOf (front b.slots))).head? := by
  cases hblock : b.pollBlock max with
  | none => exact absurd (pollBlock_eq_none hblock slot hslot) hfree
  | some block =>
    refine ⟨block, rfl, (slotCount_pollBlock hblock).1, ?_⟩
    unfold pollBlock at hblock
    dsimp only at hblock
    split at hblock
    · simp at hblock
    · rw [← Option.some.inj hblock]
      exact head?_gather max b.slots {}

end WriteBuffer

namespace Appender

variable {a b : Appender}

/-- Where the slot at the front is not held, a cycle frees slots, unless it fails. -/
theorem drainOnce_goes_on {slot : Slot} (hslot : a.buffer.slots.head? = some slot)
    (hfree : slot.state ≠ .claimed) {answer : Bool} (h : drainOnce.run a = (.ok answer, b)) :
    answer = true ∧ b.buffer.slots.length < a.buffer.slots.length := by
  obtain ⟨hnone, -, -⟩ | ⟨block, -, hends⟩ := drainOnce_runs h
  · exact absurd (WriteBuffer.pollBlock_eq_none hnone slot hslot) hfree
  · obtain rfl : answer = true := by
      obtain ⟨-, hr, -⟩ | ⟨-, ⟨e, hr, -⟩ | ⟨c, hr, -⟩⟩ := hends
      · exact Except.ok.inj hr
      · simp at hr
      · exact Except.ok.inj hr
    exact ⟨rfl, length_drainOnce h⟩

/-- A drain that no failure ends comes to a held claim or to the end of the buffer. -/
theorem drain_goes_on (h : (drain a).1 = true) :
    ∀ slot ∈ (drain a).2.buffer.slots.head?, slot.state = .claimed := by
  fun_induction drain a with
  | case1 a b hrun ih => exact ih h
  | case2 a b hrun =>
    intro slot hslot
    by_contra hfree
    obtain rfl := eq_of_drainOnce_false hrun
    simpa using (drainOnce_goes_on hslot hfree hrun).1
  | case3 a e b hrun => simp at h

/-! ## What an appender does to its buffer -/

/-- `b` has no other limits than `a`, and no slot that `a` does not have. -/
structure Thins (a b : Appender) : Prop where
  maxBlock : b.maxBlock = a.maxBlock
  maxFragment : b.buffer.maxFragment = a.buffer.maxFragment
  slots : b.buffer.slots ⊆ a.buffer.slots

theorem Thins.of_eq (hmax : b.maxBlock = a.maxBlock) (hbuffer : b.buffer = a.buffer) : a.Thins b :=
  ⟨hmax, by rw [hbuffer], by rw [hbuffer]; exact List.Subset.refl _⟩

instance : IsPreorder Appender Thins where
  refl _ := .of_eq rfl rfl
  trans _ _ _ h h' := ⟨h'.maxBlock.trans h.maxBlock, h'.maxFragment.trans h.maxFragment,
    List.Subset.trans h'.slots h.slots⟩

theorem atCycle_thins : AtCycle Thins where
  append _ _ := .of_eq rfl rfl
  flush _ := .of_eq rfl rfl
  truncate _ _ := .of_eq rfl rfl
  note _ _ _ _ := .of_eq rfl rfl
  count _ _ := .of_eq rfl rfl
  mark _ _ := .of_eq rfl rfl
  move _ _ := .of_eq rfl rfl
  free _ count := ⟨rfl, rfl, List.drop_subset count _⟩

theorem atWork_thins : AtWork Thins where
  once := atCycle_thins.drainOnce
  flush _ := .of_eq rfl rfl
  halt _ _ := .of_eq rfl rfl
  look _ := .of_eq rfl rfl
  answer _ := ⟨rfl, rfl, List.Subset.refl _⟩
  rest _ _ := .of_eq rfl rfl

theorem atCommand_thins : AtCommand Thins :=
  .of_log (fun _ _ => .of_eq rfl rfl) (fun _ => .of_eq rfl rfl) (fun _ _ => .of_eq rfl rfl)
    (fun _ _ => ⟨rfl, rfl, List.Subset.refl _⟩) (fun _ _ _ _ => .of_eq rfl rfl) fun a => by
      unfold announceRecovery
      split
      · exact .of_eq rfl rfl
      · exact .of_eq rfl rfl

/-- The limits of an appender are these, and no payload in its buffer passes the second one. -/
structure Capped (most limit : Nat) (a : Appender) : Prop where
  maxBlock : a.maxBlock = most
  maxFragment : a.buffer.maxFragment = limit
  short : ∀ slot ∈ a.buffer.slots, slot.Short limit

variable {most limit : Nat}

theorem Capped.thin (h : a.Capped most limit) (hab : a.Thins b) : b.Capped most limit :=
  ⟨hab.maxBlock.trans h.maxBlock, hab.maxFragment.trans h.maxFragment,
    fun slot hslot => h.short slot (hab.slots hslot)⟩

/-- What a cycle of an appender hands over: the frames of the block that it polls, not more than it
may. -/
structure Fits (most : Nat) (a : Appender) (bytes : Bytes) (block : DrainBlock) : Prop where
  polled : a.buffer.pollBlock a.maxBlock = some block
  framed : bytes = Frame.encodeRun a.nextPosition block.fragments
  nonempty : bytes ≠ []
  measured : bytes.length = block.frameBytes
  bounded : bytes.length ≤ most

theorem Capped.fits (h : a.Capped most limit) (hlimit : Frame.lengthFor limit ≤ most)
    {bytes : Bytes} (hhanded : a.handed = some bytes) : ∃ block, a.Fits most bytes block := by
  obtain ⟨block, hpoll, hne, rfl⟩ := handed_cases hhanded
  have hgathered : WriteBuffer.gather a.maxBlock a.buffer.slots {} = block := by
    unfold WriteBuffer.pollBlock at hpoll
    dsimp only at hpoll
    split at hpoll
    · simp at hpoll
    · exact Option.some.inj hpoll
  have hmeasured : block.frameBytes = (Frame.encodeRun a.nextPosition block.fragments).length :=
    hgathered ▸ WriteBuffer.frameBytes_gather a.nextPosition a.maxBlock a.buffer.slots {} rfl
  have hbounded : block.frameBytes ≤ most := by
    rw [← hgathered, h.maxBlock]
    exact WriteBuffer.frameBytes_gather_le h.short hlimit (fun _ => rfl) (Nat.zero_le _)
  exact ⟨block, {
    polled := hpoll
    framed := rfl
    nonempty := mt Frame.encodeRun_eq_nil.1 hne
    measured := hmeasured.symm
    bounded := hmeasured ▸ hbounded }⟩

end Appender

/-! ## Runs -/

namespace WriteBuffer

variable {b after : WriteBuffer}

/-- Ending a claim gives at most one slot a new state. -/
theorem mem_slots_finish {slot : Nat} {outcome : SlotState} {s : Slot}
    (h : s ∈ (b.finish slot outcome).slots) : s ∈ b.slots ∨ s.state = outcome := by
  have hslots : (b.finish slot outcome).slots = (b.setState slot outcome).slots := rfl
  rw [hslots] at h
  unfold setState at h
  split at h
  · exact .inl h
  · split at h
    · exact .inl h
    · obtain ⟨i, hi, hs⟩ := List.getElem_of_mem h
      rw [List.getElem_modify] at hs
      split at hs
      · exact .inr (by rw [← hs])
      · exact .inl (hs ▸ List.getElem_mem _)

/-- A new claim adds no payload. -/
theorem short_of_claimed {slot length : Nat} {new : List Slot} (h : b.Claimed after slot length new)
    (limit : Nat) : ∀ s ∈ new, s.Short limit := by
  intro s hs payload hstate
  have hentry : (⟨s.id, .committed payload⟩ : ClaimEntry) ∈ entriesOf new :=
    List.mem_filterMap.2 ⟨s, hs, by simp [Slot.entry?, hstate]⟩
  rw [h.entries] at hentry
  simp at hentry

end WriteBuffer

namespace Run

open Appender

variable {u : Run} {actions : List Action} {most limit : Nat}

/-- The limits are kept by the buffer and by the claims that will be in it. -/
structure Capped (most limit : Nat) (u : Run) : Prop where
  appender : u.appender.Capped most limit
  held : ∀ claim ∈ u.held, claim.payload.length ≤ limit

/-- What the appender does changes nothing about that. -/
theorem Capped.thin {v : Run} (h : u.Capped most limit) (hthins : u.appender.Thins v.appender)
    (hheld : v.held = u.held) : v.Capped most limit :=
  ⟨h.appender.thin hthins, hheld ▸ h.held⟩

theorem Capped.endClaim (h : u.Capped most limit) (index : Nat) (claim : Claim) (fate : Fate)
    {outcome : SlotState}
    (hshort : ∀ payload, outcome = .committed payload → payload.length ≤ limit) :
    (u.endClaim index claim fate (u.buffer.finish claim.slot outcome)).Capped most limit where
  appender := by
    refine ⟨h.appender.maxBlock, ?_, fun s hs => ?_⟩
    · exact (WriteBuffer.finish_terms u.buffer claim.slot outcome).maxFragment.trans
        h.appender.maxFragment
    · rcases WriteBuffer.mem_slots_finish hs with hold | hstate
      · exact h.appender.short s hold
      · exact fun payload hpayload => hshort payload (hstate.symm.trans hpayload)
  held := fun c hc => h.held c (List.mem_of_mem_eraseIdx hc)

theorem Capped.claim (h : u.Capped most limit) (length : Nat) :
    (u.act (.claim length)).Capped most limit := by
  have hterms {r : Except LogError Claim} {b : WriteBuffer}
      (hrun : (WriteBuffer.tryClaim length).run u.buffer = (r, b)) : b.maxFragment = limit :=
    (WriteBuffer.tryClaim_terms hrun).maxFragment.trans h.appender.maxFragment
  simp only [act]
  split
  · next e b hrun =>
    have hslots : b.slots = u.appender.buffer.slots := (WriteBuffer.tryClaim_error hrun).1
    exact ⟨⟨h.appender.maxBlock, hterms hrun, fun s hs => h.appender.short s (hslots ▸ hs)⟩, h.held⟩
  · next claim b hrun =>
    obtain ⟨⟨reserved, new, hclaimed⟩, hlength, -, hle⟩ := WriteBuffer.tryClaim_ok hrun
    refine ⟨⟨h.appender.maxBlock, hterms hrun, fun s hs => ?_⟩, fun c hc => ?_⟩
    · have hmem : s ∈ u.appender.buffer.slots ++ new := hclaimed.slots ▸ hs
      rcases List.mem_append.1 hmem with hs | hs
      · exact h.appender.short s hs
      · exact WriteBuffer.short_of_claimed hclaimed limit s hs
    · rcases List.mem_append.1 hc with hc | hc
      · exact h.held c hc
      · obtain rfl := List.mem_singleton.1 hc
        rw [hlength]
        exact h.appender.maxFragment ▸ hle

theorem Capped.act (h : u.Capped most limit) (action : Action) :
    (u.act action).Capped most limit := by
  cases action with
  | request command =>
    have hsame := u.request_appender command
    exact h.thin (.of_eq (by rw [hsame]) (by rw [hsame])) rfl
  | advance patient =>
    cases hnext : u.lifecycle.advance patient with
    | none =>
      simp only [Run.act, hnext]
      exact h
    | some next =>
      refine h.thin ?_ ?_
      · rw [advance_appender hnext]
        exact Lifecycle.advance_leads atCommand_thins atWork_thins.stop hnext
      · simp only [Run.act, hnext]
        split
        · rfl
        · rfl
  | claim length => exact h.claim length
  | commit index payload =>
    simp only [Run.act]
    split
    · exact h
    · next claim hclaim =>
      split
      · next hlength =>
        refine h.endClaim index claim _ fun x hx => ?_
        cases hx
        exact hlength ▸ h.held claim (List.mem_of_getElem? hclaim)
      · exact h
  | abort index =>
    simp only [Run.act]
    split
    · exact h
    · exact h.endClaim _ _ _ (by simp)
  | drain => exact h.thin (atWork_thins.cycle u.appender) rfl
  | wake => exact h.thin (atWork_thins.wake u.appender) rfl
  | raiseCommit position => exact h.thin (.of_eq rfl rfl) rfl
  | tear rest =>
    simp only [Run.act]
    split
    · exact h.thin (.of_eq rfl rfl) rfl
    · exact h

theorem Capped.step (h : u.Capped most limit) (action : Action) :
    (u.step action).Capped most limit :=
  ⟨(h.act action).appender, (h.act action).held⟩

theorem Capped.run (h : u.Capped most limit) (actions : List Action) :
    (u.after actions).Capped most limit := by
  induction actions generalizing u with
  | nil => exact h
  | cons action rest ih => exact ih (h.step action)

/-- A stream that is created keeps the limits that its settings come to. -/
theorem capped_of_create {config : LogConfig} (hvalid : config.validate = .ok ())
    (storage : Storage) :
    ∃ s, LogStream.create config storage = .ok s ∧
      WriteBuffer.create config.writeBufferSize config.maxFragment = .ok s.buffer ∧
      ∀ initial, (start s initial).Capped config.maxAppendBlock config.maxFragment := by
  have hbuffer := LogConfig.create_of_validate hvalid
  simp only [LogStream.create, hvalid, hbuffer, bind, Except.bind, pure, Except.pure,
    Except.ok.injEq, exists_eq_left']
  refine ⟨rfl, fun initial => ⟨⟨rfl, rfl, fun slot hslot => ?_⟩, fun claim hclaim => ?_⟩⟩
  · exact absurd hslot List.not_mem_nil
  · exact absurd hclaim List.not_mem_nil

/-- With valid settings a stream can be created, and every block that a cycle hands over in a run of
it is made of frames, some of them and all whole, of which there are as many bytes as the block
counts and not more than the settings allow. The storage of a run is asked to append as many blocks
as there are, and by each cycle the one that it hands over, if any. Draining goes on wherever the
slot at the front is not a held claim: some slots are polled, with the first payload before a held
claim among them, a cycle that does not fail frees slots, and a drain that does not fail ends at a
held claim or with no slot left. -/
theorem blocks_fit {config : LogConfig} (hvalid : config.validate = .ok ()) (storage : Storage) :
    ∃ s, LogStream.create config storage = .ok s ∧
      WriteBuffer.create config.writeBufferSize config.maxFragment = .ok s.buffer ∧
      (∀ initial actions, ∀ a ∈ (start s initial).cycles actions, ∀ bytes, a.handed = some bytes →
        ∃ block, a.Fits config.maxAppendBlock bytes block) ∧
      (∀ initial actions, (∀ action ∈ actions, ¬ action.Tears) →
        ((start s initial).after actions).appender.appends
          = s.appender.appends + (handedOver ((start s initial).cycles actions)).length) ∧
      (∀ (a b : Appender) r, drainOnce.run a = (r, b) →
        (a.handed = none → b.log.storage = a.log.storage) ∧
          ∀ bytes, a.handed = some bytes → a.Hands bytes b) ∧
      (∀ (b : WriteBuffer) max slot, b.slots.head? = some slot → slot.state ≠ .claimed →
        ∃ block, b.pollBlock max = some block ∧ 0 < block.slotCount ∧
          block.fragments.head? = (payloadsOf (entriesOf (WriteBuffer.front b.slots))).head?) ∧
      (∀ (a b : Appender) slot answer, a.buffer.slots.head? = some slot → slot.state ≠ .claimed →
        drainOnce.run a = (.ok answer, b) →
        answer = true ∧ b.buffer.slots.length < a.buffer.slots.length) ∧
      ∀ a : Appender, (drain a).1 = true →
        ∀ slot ∈ (drain a).2.buffer.slots.head?, slot.state = .claimed := by
  obtain ⟨s, hcreate, hbuffer, hcapped⟩ := capped_of_create hvalid storage
  have hlimit : Frame.lengthFor config.maxFragment ≤ config.maxAppendBlock := by
    have hroom := LogConfig.maxFragment_of_validate hvalid
    unfold LogConfig.maxFragment at hroom ⊢
    unfold Frame.lengthFor
    omega
  refine ⟨s, hcreate, hbuffer, fun initial actions a ha bytes hbytes => ?_,
    fun initial actions hwhole => appends_after hwhole,
    fun a b r hrun => drainOnce_hands hrun,
    fun b max slot hslot hfree => WriteBuffer.pollBlock_front hslot hfree max,
    fun a b slot answer hslot hfree hrun => drainOnce_goes_on hslot hfree hrun,
    fun a hdone => drain_goes_on hdone⟩
  obtain ⟨before, action, later, -, hmem⟩ := mem_cycles ha
  have hthins := leads_of_cyclesOf atWork_thins atCommand_thins hmem
  exact (((hcapped initial).run before).appender.thin hthins).fits hlimit hbytes

/-- Settings with room for 40 bytes in a block. -/
def small : LogConfig := { writeBufferSize := 90, maxAppendBlock := 40 }

def smallStream : LogStream where
  config := small
  appender := {
    log := {
      storage := .newMemory
      sampling := ⟨max 1 small.samplingThreshold, 1024, none, false, none⟩ }
    buffer := { capacity := 90, maxFragment := 24 }
    maxBlock := 40 }

/-- One of four claims is given back, and there are three payloads for a block of two; a later
claim does not fit before the end of the ring. -/
def smallRun : List Action :=
  carryOut .openUp ++ [.claim 4, .claim 4, .claim 4, .claim 4, .commit 0 [1, 2, 3, 4], .abort 0,
    .commit 0 [5, 6, 7, 8], .commit 0 [9, 10, 11, 12], .drain, .claim 4, .commit 0 [13, 14, 15, 16],
    .drain]

theorem blocks_fit_small :
    small.validate = .ok () ∧ LogStream.create small .newMemory = .ok smallStream ∧
      (handedOver ((start smallStream []).cycles smallRun)).map List.length = [40, 40] ∧
      ∀ bytes ∈ handedOver ((start smallStream []).cycles smallRun),
        bytes ≠ [] ∧ bytes.length ≤ 40 := by
  have hvalid : small.validate = .ok () := rfl
  have hcreate : LogStream.create small .newMemory = .ok smallStream := rfl
  refine ⟨hvalid, hcreate, by decide +kernel, fun bytes hbytes => ?_⟩
  obtain ⟨s, hs, -, hfit, -⟩ := blocks_fit hvalid .newMemory
  obtain rfl : smallStream = s := Except.ok.inj (hcreate.symm.trans hs)
  obtain ⟨a, ha, hhanded⟩ := List.mem_filterMap.1 hbytes
  obtain ⟨block, hblock⟩ := hfit [] smallRun a ha bytes hhanded
  exact ⟨hblock.nonempty, hblock.bounded⟩

end Run

end PartitionLog
