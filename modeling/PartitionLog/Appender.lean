import PartitionLog.IndexedLog
import PartitionLog.Listeners
import PartitionLog.WriteBuffer

/-!
# The appender

Takes committed records from the write buffer, gives them positions and writes them to storage.
`drainOnce` is one cycle: collect a block at the front of the buffer, frame it, append and flush it,
note it in the index, then move the position and free the slots. A fault leaves the slots in the
buffer and halts the appender until it is opened again; a block that could not be rolled back is
remembered as stale and removed before anything is appended or recovered.
-/

namespace PartitionLog

/-- When appended blocks are flushed. -/
inductive SyncStrategy where
  | everyBlock
  | everyBlocks (count : Nat)
  deriving DecidableEq, Repr

inductive AppenderPhase where
  | closed
  | draining
  | failed
  deriving DecidableEq, Repr

def AppenderPhase.name : AppenderPhase → String
  | closed => "Closed"
  | draining => "Open"
  | failed => "Failed"

structure Appender where
  log : IndexedLog
  buffer : WriteBuffer
  listeners : Listeners := {}
  /-- Most bytes of frames in one block, unless a single frame is longer. -/
  maxBlock : Nat
  sync : SyncStrategy := .everyBlock
  /-- Position that the next drained record gets. -/
  nextPosition : Int := 0
  /-- Blocks appended since the last flush for a block. -/
  unflushed : Nat := 0
  phase : AppenderPhase := .closed
  /-- Whether the appender was started and not stopped; a halted one counts as started. -/
  isRunning : Bool := false
  /-- Whether it is still to look at the buffer for the first time since it was started. -/
  isFresh : Bool := false
  /-- Whether a halt was announced without a recovery after it. -/
  failedBefore : Bool := false
  /-- Address of a block that could not be rolled back; its slots are still in the buffer. -/
  staleBlock : Option Nat := none

namespace Appender

/-- Whether commits are drained at once. -/
def isLive (a : Appender) : Bool := a.isRunning && a.phase = .draining

def onStorage {α : Type} (x : Attempt Storage α) : Attempt Appender α :=
  x.within (·.log.storage) fun storage a => { a with log := { a.log with storage := storage } }

def onLog {α : Type} (x : Attempt IndexedLog α) : Attempt Appender α :=
  x.within (·.log) fun log a => { a with log := log }

/-! ## One cycle -/

/-- Whether the block just appended is to be flushed, `unflushed` counting it. -/
def flushDue (sync : SyncStrategy) (unflushed : Nat) : Bool :=
  match sync with
  | .everyBlock => true
  | .everyBlocks count => decide (count ≤ unflushed)

/-- Count an appended block and flush if that is due. -/
def settleBlock : Attempt Appender Unit := do
  .modify fun a =>
    if a.sync = .everyBlock then a else { a with unflushed := a.unflushed + 1 }
  let a ← .get
  if flushDue a.sync a.unflushed then
    onStorage Storage.flush
    .modify fun a => { a with unflushed := 0 }

/-- Take back a block whose flush failed with `cause`. -/
def rollBack (address : Nat) (cause : LogError) : Attempt Appender Unit := fun a =>
  match (onStorage (Storage.truncate address)).run a with
  | (.ok (), a) => (.error (.flushFailed cause), a)
  | (.error e, a) =>
    (.error (.rollbackFailed cause address e), { a with staleBlock := some address })

/-- Append a block durably; the answer is its address. -/
def storeBlock (block : Bytes) : Attempt Appender Nat := do
  let address ← (onStorage (Storage.append block)).mapError (.appendFailed block.length)
  match ← settleBlock.outcome with
  | .ok () => return address
  | .error e => rollBack address e; return address

/-- Write the fragments of a block and note it in the index. -/
def writeBlock (fragments : List Bytes) : Attempt Appender Unit := do
  let a ← .get
  let block := Frame.encodeRun a.nextPosition fragments
  let address ← storeBlock block
  onLog (IndexedLog.noteBlock a.nextPosition address block.length)
  .modify fun a =>
    { a with nextPosition := a.nextPosition + fragments.flatten.length }

/-- One drain cycle; the answer is whether anything could be drained. -/
def drainOnce : Attempt Appender Bool := fun a =>
  match a.buffer.pollBlock a.maxBlock with
  | none => (.ok false, a)
  | some block =>
    let release (a : Appender) : Appender :=
      { a with buffer := a.buffer.release block.slotCount }
    if block.fragments.isEmpty then (.ok true, release a)
    else
      match (writeBlock block.fragments).run a with
      | (.error e, a) => (.error e, a)
      | (.ok (), a) => (.ok true, release a)

/-! ## What a cycle leaves alone -/

/-- An attempt that never touches the write buffer. -/
def KeepsBuffer {α : Type} (x : Attempt Appender α) : Prop :=
  ∀ a, (x.run a).2.buffer = a.buffer

namespace KeepsBuffer

variable {α β : Type}

theorem pure (a : α) : KeepsBuffer (Pure.pure a : Attempt Appender α) := fun _ => rfl

theorem get : KeepsBuffer (.get : Attempt Appender Appender) := fun _ => rfl

theorem modify {f : Appender → Appender} (h : ∀ a, (f a).buffer = a.buffer) :
    KeepsBuffer (.modify f) := h

theorem bind {x : Attempt Appender α} {f : α → Attempt Appender β} (hx : KeepsBuffer x)
    (hf : ∀ a, KeepsBuffer (f a)) : KeepsBuffer (x >>= f) := by
  intro a
  have h := hx a
  rw [Attempt.run_bind]
  split
  · next b t ht => rw [hf b t, ← h, ht]
  · next e t ht => rw [← h, ht]

theorem outcome {x : Attempt Appender α} (hx : KeepsBuffer x) : KeepsBuffer x.outcome := by
  intro a
  rw [← hx a]
  rfl

theorem mapError {x : Attempt Appender α} (hx : KeepsBuffer x) (f : LogError → LogError) :
    KeepsBuffer (x.mapError f) := by
  intro a
  rw [← hx a]
  simp only [Attempt.run, Attempt.mapError]
  split <;> simp_all

theorem onStorage (x : Attempt Storage α) : KeepsBuffer (onStorage x) := fun _ => rfl

theorem onLog (x : Attempt IndexedLog α) : KeepsBuffer (onLog x) := fun _ => rfl

theorem settleBlock : KeepsBuffer settleBlock := by
  refine bind (modify fun a => ?_) fun _ => bind get fun a => ?_
  · split <;> rfl
  · split
    · exact bind (onStorage _) fun _ => modify fun _ => rfl
    · exact pure _

theorem rollBack (address : Nat) (cause : LogError) : KeepsBuffer (rollBack address cause) := by
  intro a
  have h := onStorage (Storage.truncate address) a
  simp only [Attempt.run, Appender.rollBack] at *
  split <;> simp_all

theorem storeBlock (block : Bytes) : KeepsBuffer (storeBlock block) := by
  refine bind (mapError (onStorage _) _) fun address => bind (outcome settleBlock) fun r => ?_
  cases r with
  | ok => exact pure _
  | error e => exact bind (rollBack _ _) fun _ => pure _

theorem writeBlock (fragments : List Bytes) : KeepsBuffer (writeBlock fragments) :=
  bind get fun _ => bind (storeBlock _) fun _ => bind (onLog _) fun _ => modify fun _ => rfl

end KeepsBuffer

theorem length_drainOnce {a b : Appender} (h : drainOnce.run a = (.ok true, b)) :
    b.buffer.slots.length < a.buffer.slots.length := by
  simp only [Attempt.run, drainOnce] at h
  split at h
  · simp at h
  · next block hb =>
    have hc := WriteBuffer.slotCount_pollBlock hb
    split at h
    · simp only [Prod.mk.injEq, true_and] at h
      subst h
      simp only [WriteBuffer.release, List.length_drop]
      omega
    · split at h
      · simp at h
      · next c hw =>
        simp only [Prod.mk.injEq, true_and] at h
        subst h
        have hk : c.buffer = a.buffer := by
          have hk := KeepsBuffer.writeBlock block.fragments a
          rwa [Attempt.run, hw] at hk
        simp only [WriteBuffer.release, List.length_drop, hk]
        omega

/-! ## Draining, starting and stopping -/

/-- Halt because of `e` and tell the listeners. -/
def halt (a : Appender) (e : LogError) : Appender :=
  { a with
    phase := .failed
    failedBefore := true
    listeners := a.listeners.notify (.failure e) }

/-- Drain until the front of the buffer is blocked or empty; the answer is whether the appender
is still draining then. -/
def drain (a : Appender) : Bool × Appender :=
  match _h : drainOnce.run a with
  | (.ok true, a) => drain a
  | (.ok false, a) => (true, a)
  | (.error e, a) => (false, a.halt e)
termination_by a.buffer.slots.length
decreasing_by exact length_drainOnce _h

def answerDoorbell (a : Appender) : Appender :=
  { a with buffer := { a.buffer with doorbell := false } }

/-- Let a live appender drain all it can. It answers the doorbell before it drains, but drains once
before it listens for the first time. -/
def wake (a : Appender) : Appender :=
  if !a.isLive then a
  else if a.isFresh then
    match drain { a with isFresh := false } with
    | (true, a) => a.answerDoorbell
    | (false, a) => a
  else (drain a.answerDoorbell).2

/-- Remove the block that a failed rollback left in storage. -/
def discardStale : Attempt Appender Unit := fun a =>
  match a.staleBlock with
  | none => (.ok (), a)
  | some address =>
    match (onStorage (Storage.truncate address)).run a with
    | (.error e, a) => (.error e, a)
    | (.ok (), a) => (.ok (), { a with staleBlock := none })

/-- Announce a recovery after a halt. -/
def announceRecovery (a : Appender) : Appender :=
  if a.failedBefore then
    { a with failedBefore := false, listeners := a.listeners.notify .recovered }
  else a

/-- Start the appender; nothing happens if it is draining. -/
def start : Attempt Appender Unit := fun a =>
  if a.isLive then (.ok (), a)
  else
    match discardStale.run { a with isRunning := false } with
    | (.error e, a) => (.error e, a)
    | (.ok (), a) =>
      (.ok (), { a with phase := .draining, isRunning := true, isFresh := true }.announceRecovery)

/-- The last drain and flush of a live appender. -/
def finishUp (a : Appender) : Appender :=
  match drain a with
  | (false, a) => a
  | (true, a) =>
    match (onStorage Storage.flush).run a with
    | (.ok (), a) => a
    | (.error e, a) => a.halt (.finalFlushFailed e)

/-- Stop the appender after a last drain; a halt stays on record. -/
def stop (a : Appender) : Appender :=
  let a := if a.isLive then a.finishUp else a
  { a with isRunning := false, phase := if a.phase = .draining then .closed else a.phase }

/-- Set the position of the next record, while the appender is stopped. -/
def moveTo (position : Int) : Attempt Appender Unit := fun a =>
  if a.isRunning then (.error (.invalidState .moveWhileAppending), a)
  else (.ok (), { a with nextPosition := position })

/-- Forget a halt, once the appender is stopped. -/
def resetFailure (a : Appender) : Appender :=
  if a.phase = .failed ∧ a.isRunning = false then { a with phase := .closed } else a

end Appender

end PartitionLog
