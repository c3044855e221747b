import PartitionLog.Frame

/-!
# The write buffer

A ring in which producers claim space for a record, fill it, and commit or abort the claim; the
drainer takes slots from the front in claim order. `head` and `tail` are logical offsets that only
grow, the physical offset is the logical one modulo the capacity. A record never wraps: where it
would, a padding slot fills the ring up to its end. Space is counted in frame lengths.
-/

namespace PartitionLog

inductive SlotState where
  | claimed
  | committed (payload : Bytes)
  | aborted
  | padding
  deriving DecidableEq, Repr

structure Slot where
  id : Nat
  /-- Bytes of the ring that belong to the slot. -/
  reserved : Nat
  state : SlotState
  deriving DecidableEq, Repr

/-- Space in the ring that a producer holds, and the payload it puts there. -/
structure Claim where
  slot : Nat
  /-- Logical offset of the slot. -/
  offset : Nat
  payload : Bytes
  deriving DecidableEq, Repr

/-- A run of slots at the front that can be drained. -/
structure DrainBlock where
  fragments : List Bytes := []
  /-- Slots of the run, those without a fragment included. -/
  slotCount : Nat := 0
  /-- Frame lengths of the fragments, summed. -/
  frameBytes : Nat := 0
  deriving DecidableEq, Repr

namespace DrainBlock

/-- Cover a slot without a fragment. -/
def skip (block : DrainBlock) : DrainBlock := { block with slotCount := block.slotCount + 1 }

def add (block : DrainBlock) (payload : Bytes) : DrainBlock where
  fragments := block.fragments ++ [payload]
  slotCount := block.slotCount + 1
  frameBytes := block.frameBytes + Frame.lengthFor payload.length

/-- Whether a fragment still goes into a block of at most `max` bytes; a first one always does. -/
def Fits (block : DrainBlock) (max : Nat) (payload : Bytes) : Prop :=
  block.fragments = [] ∨ block.frameBytes + Frame.lengthFor payload.length ≤ max

instance (block : DrainBlock) (max : Nat) (payload : Bytes) :
    Decidable (block.Fits max payload) := by
  unfold Fits; infer_instance

end DrainBlock

structure WriteBuffer where
  capacity : Nat
  maxFragment : Nat
  /-- Slots in claim order, oldest first. -/
  slots : List Slot := []
  head : Nat := 0
  tail : Nat := 0
  nextSlot : Nat := 0
  /-- Claims that are neither committed nor aborted. -/
  outstanding : Nat := 0
  closed : Bool := false
  /-- Rung whenever a claim ends; one ring is kept. -/
  doorbell : Bool := false
  deriving DecidableEq, Repr

namespace WriteBuffer

def create (capacity maxFragment : Nat) : Except LogError WriteBuffer :=
  if maxFragment = 0 ∨ capacity < Frame.lengthFor maxFragment then
    .error (.config (.fragmentMisfit maxFragment capacity))
  else .ok { capacity, maxFragment }

def used (b : WriteBuffer) : Nat := b.tail - b.head

def isEmpty (b : WriteBuffer) : Bool := b.slots.isEmpty

def physical (b : WriteBuffer) (offset : Nat) : Nat := offset % b.capacity

/-! ## Producers -/

def push (b : WriteBuffer) (reserved : Nat) (state : SlotState) : WriteBuffer :=
  { b with
    slots := b.slots ++ [⟨b.nextSlot, reserved, state⟩]
    tail := b.tail + reserved
    nextSlot := b.nextSlot + 1 }

/-- Bytes that a frame of this length leaves unused at the end of the ring. -/
def paddingFor (b : WriteBuffer) (frameLength : Nat) : Nat :=
  if b.capacity < b.physical b.tail + frameLength then b.capacity - b.physical b.tail else 0

/-- Move an empty ring's offsets on, where a frame would not fit before its end. -/
def restart (b : WriteBuffer) (frameLength : Nat) : WriteBuffer :=
  if b.used = 0 then
    { b with
      head := b.head + b.paddingFor frameLength
      tail := b.tail + b.paddingFor frameLength }
  else b

/-- Take contiguous space; the answer is slot and logical offset. -/
def reserve (frameLength : Nat) : Attempt WriteBuffer (Nat × Nat) := fun b =>
  let restarted := b.restart frameLength
  let padding := restarted.paddingFor frameLength
  if restarted.capacity < restarted.used + padding + frameLength then
    (.error (.backpressure frameLength (restarted.capacity - restarted.used)), restarted)
  else
    let padded := if 0 < padding then restarted.push padding .padding else restarted
    (.ok (padded.nextSlot, padded.tail),
      { padded.push frameLength .claimed with outstanding := padded.outstanding + 1 })

/-- Whether a record of this length can be claimed at all. -/
def checkLength (b : WriteBuffer) (length : Nat) : Except LogError Unit :=
  if length = 0 then .error (.invalidArgument .emptyRecord)
  else if b.maxFragment < length then
    .error (.invalidArgument (.recordTooLong length b.maxFragment))
  else .ok ()

/-- Claim space for a payload of `length` bytes, zeros until it is filled. -/
def tryClaim (length : Nat) : Attempt WriteBuffer Claim := fun b =>
  match b.checkLength length with
  | .error e => (.error e, b)
  | .ok () =>
    if b.closed then (.error (.invalidState .bufferClosed), b)
    else
      match (reserve (Frame.lengthFor length)).run b with
      | (.error e, b) => (.error e, b)
      | (.ok (slot, offset), b) => (.ok ⟨slot, offset, List.replicate length 0⟩, b)

/-- Change the state of a slot, if it is still in the ring. -/
def setState (b : WriteBuffer) (slot : Nat) (state : SlotState) : WriteBuffer :=
  match b.slots with
  | [] => b
  | first :: _ =>
    if slot < first.id then b
    else { b with slots := b.slots.modify (slot - first.id) ({ · with state := state }) }

/-- End a claim. -/
def finish (b : WriteBuffer) (slot : Nat) (outcome : SlotState) : WriteBuffer :=
  let b := b.setState slot outcome
  { b with outstanding := b.outstanding - 1, doorbell := true }

def commit (b : WriteBuffer) (claim : Claim) : WriteBuffer :=
  b.finish claim.slot (.committed claim.payload)

/-- Give a claim back; a claim that is dropped ends so too. -/
def abort (b : WriteBuffer) (claim : Claim) : WriteBuffer := b.finish claim.slot .aborted

/-- Claim, fill and commit in one go; the answer is the claim. -/
def put (payload : Bytes) : Attempt WriteBuffer Claim := fun b =>
  match (tryClaim payload.length).run b with
  | (.error e, b) => (.error e, b)
  | (.ok claim, b) =>
    let filled := { claim with payload := payload }
    (.ok filled, b.commit filled)

/-- Claim in a state that holds a buffer, and wait for space: each of `turns` is what others do until
there may be some, the last one what they do up to the deadline. If that was in vain, the claim fails
as it did before. -/
def claimWaiting {σ : Type} (get : σ → WriteBuffer) (replace : WriteBuffer → σ → σ) (length : Nat) :
    List (σ → σ) → Attempt σ Claim
  | [] => (tryClaim length).within get replace
  | turn :: turns => fun s =>
    match ((tryClaim length).within get replace).run s with
    | (.error (.backpressure requested available), s) =>
      match turns, (claimWaiting get replace length turns).run (turn s) with
      | [], (.error (.backpressure _ _), t) => (.error (.backpressure requested available), t)
      | _, answer => answer
    | answer => answer

/-! ## Draining -/

/-- Add the slots of a run to a block of at most `max` bytes of frames. -/
def gather (max : Nat) : List Slot → DrainBlock → DrainBlock
  | [], block => block
  | slot :: rest, block =>
    match slot.state with
    | .claimed => block
    | .padding | .aborted => gather max rest block.skip
    | .committed payload =>
      if block.Fits max payload then gather max rest (block.add payload) else block

/-- The slots at the front that can be drained together; `none` if the first one cannot. -/
def pollBlock (b : WriteBuffer) (max : Nat) : Option DrainBlock :=
  let block := gather max b.slots {}
  if block.slotCount = 0 then none else some block

/-- Free the first slots. -/
def release (b : WriteBuffer) (count : Nat) : WriteBuffer :=
  { b with
    slots := b.slots.drop count
    head := (b.slots.take count).foldl (· + ·.reserved) b.head }

/-! ## Closing -/

/-- Take no more claims. -/
def shut (b : WriteBuffer) : WriteBuffer := { b with closed := true }

/-- The outcome of waiting for claims to end, once the grace period (in nanoseconds) is over. -/
def waited (b : WriteBuffer) (grace : Nat) : Except LogError Unit :=
  if 0 < b.outstanding then .error (.claimsOutstanding b.outstanding grace) else .ok ()

/-- Take claims again; what was not drained is kept. -/
def reopen (b : WriteBuffer) : WriteBuffer := { b with closed := false }

/-! ## A run is never longer than the buffer -/

theorem slotCount_gather (max : Nat) (slots : List Slot) (block : DrainBlock) :
    block.slotCount ≤ (gather max slots block).slotCount ∧
      (gather max slots block).slotCount ≤ block.slotCount + slots.length := by
  induction slots generalizing block with
  | nil => simp [gather]
  | cons slot rest ih =>
    unfold gather
    split
    · simp
    · have := ih block.skip; simp only [DrainBlock.skip, List.length_cons] at *; omega
    · have := ih block.skip; simp only [DrainBlock.skip, List.length_cons] at *; omega
    · split
      · next payload _ _ =>
        have := ih (block.add payload); simp only [DrainBlock.add, List.length_cons] at *; omega
      · simp

theorem slotCount_pollBlock {b : WriteBuffer} {max : Nat} {block : DrainBlock}
    (h : b.pollBlock max = some block) :
    0 < block.slotCount ∧ block.slotCount ≤ b.slots.length := by
  have hg := (slotCount_gather max b.slots {}).2
  simp only [pollBlock] at h
  split at h
  · simp at h
  · simp only [Option.some.injEq] at h
    subst h
    simp only at *
    omega

end WriteBuffer

end PartitionLog
