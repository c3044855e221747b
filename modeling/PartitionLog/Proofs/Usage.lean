import PartitionLog.Proofs.Handlers
import PartitionLog.Stream.Lifecycle

/-!
# Runs of a stream

A `Run` is a stream in use: its lifecycle, the claims that producers hold, and a ledger of what became
of every payload. `Run.step` carries out one action: a client asks for a lifecycle command, the
lifecycle or the appender takes a step, a producer claims, commits or aborts, the commit position is
raised, or a closed stream loses the end of its storage. Which storage calls fail is up to the fault
plan of the storage that the run starts with. The ledger is written by the actions alone: `settled`
and the payloads of `claims` are what should be stored or buffered, and `released` are the stored
records whose slots the buffer gave up.
-/

namespace PartitionLog

/-- One cycle of the appender, if it is live; it halts if the cycle fails. -/
def Appender.cycle (a : Appender) : Appender :=
  if a.isLive then
    match drainOnce.run a with
    | (.ok _, b) => b
    | (.error e, b) => b.halt e
  else a

theorem Appender.cycle_spec {strict : Prop} {a : Appender} {payloads : List Bytes}
    (hk : a.Kept strict payloads) (hr : a.isLive = true → a.Ready payloads)
    (hsize : a.stored.length < 2 ^ 63) :
    ∃ after, a.cycle.Kept strict after ∧ (a.Ready payloads → a.cycle.Ready after) ∧
      Drained a a.cycle payloads after ∧ (a.isRunning = false → a.cycle.isRunning = false) := by
  unfold cycle
  split
  · next hlive =>
    have hready := hr hlive
    have hnone := hk.live hlive
    have hruns := isRunning_of_isLive hlive
    split
    · next hrun =>
      obtain ⟨after, hkept, hready', -, hdrained⟩ := drainOnce_ok hk hready hnone hsize hrun
      exact ⟨after, hkept, fun _ => hready', hdrained, fun h => absurd h hruns⟩
    · next e b hrun =>
      obtain ⟨hkept, hready', hslots, hnext⟩ := drainOnce_error hk hready hnone hrun e
      refine ⟨payloads, hkept, fun _ => hready', ⟨0, by simp, hslots, hnext, ?_⟩,
        fun h => absurd h hruns⟩
      simp [Ended, entriesOf, payloadsOf]
  · exact ⟨payloads, hk, id, .refl a payloads, id⟩

theorem Appender.answerDoorbell_same {strict : Prop} {a : Appender} {payloads : List Bytes}
    (hk : a.Kept strict payloads) : a.Same a.answerDoorbell :=
  hk.same_flags rfl rfl rfl rfl rfl fun _ => id

theorem Appender.wake_spec {strict : Prop} {a : Appender} {payloads : List Bytes}
    (hk : a.Kept strict payloads) (hr : a.isLive = true → a.Ready payloads)
    (hsize : a.wake.stored.length < 2 ^ 63) :
    ∃ after, a.wake.Kept strict after ∧ (a.Ready payloads → a.wake.Ready after) ∧
      Drained a a.wake payloads after ∧ (a.isRunning = false → a.wake.isRunning = false) := by
  unfold wake at hsize ⊢
  cases hlive : a.isLive with
  | false => exact ⟨payloads, hk, id, .refl a payloads, id⟩
  | true =>
    have hready := hr hlive
    have hruns := isRunning_of_isLive hlive
    simp only [hlive, Bool.not_true, Bool.false_eq_true, if_false] at hsize ⊢
    split at hsize
    · next hfresh =>
      have hsame : a.Same { a with isFresh := false } :=
        hk.same_flags rfl rfl rfl rfl rfl fun _ => id
      have hspec := drain_spec { a with isFresh := false } (hk.same hsame) (hready.same hsame)
        (hk.live hlive)
      rw [if_pos hfresh]
      generalize drain { a with isFresh := false } = drained at hsize hspec ⊢
      obtain ⟨goesOn, b⟩ := drained
      cases goesOn with
      | false =>
        obtain ⟨after, hkept, hready', -, hdrained⟩ := hspec hsize
        exact ⟨after, hkept, fun _ => hready', hdrained.of_same hsame id,
        fun h => absurd h hruns⟩
      | true =>
        obtain ⟨after, hkept, hready', -, hdrained⟩ := hspec hsize
        have hanswered := answerDoorbell_same hkept
        exact ⟨after, hkept.same hanswered, fun _ => hready'.same hanswered,
          (hdrained.of_same hsame id).same hanswered, fun h => absurd h hruns⟩
    · next hfresh =>
      have hsame := answerDoorbell_same hk
      rw [if_neg hfresh]
      obtain ⟨after, hkept, hready', -, hdrained⟩ := drain_spec a.answerDoorbell (hk.same hsame)
        (hready.same hsame) (hk.live hlive) hsize
      exact ⟨after, hkept, fun _ => hready', hdrained.of_same hsame id,
        fun h => absurd h hruns⟩

/-- A stream as it is created without a snapshot. -/
structure LogStream.Fresh (s : LogStream) : Prop where
  closed : s.state = .closed
  rests : s.appender.isRunning = false
  whole : s.appender.staleBlock = none
  unindexed : s.index.entries = []
  unsaved : s.appender.log.sampling.snapshotPath = none
  empty : s.buffer.slots = []

/-- The position at which a step of the lifecycle cut the log. -/
def Lifecycle.cutAt (l next : Lifecycle) : Option Int :=
  match l.current, next.current with
  | some (⟨_, .truncate position⟩, .taken), some (_, .handled (.ok ())) => some position
  | _, _ => none

structure Run where
  lifecycle : Lifecycle
  held : List Claim := []
  /-- Payloads that were in the log when it was cut last, or when the run began. -/
  settled : List Bytes
  /-- The claims since then, in the order in which they were made. -/
  claims : List ClaimEntry := []
  /-- Records in storage whose slots the buffer gave up, or that were there from the beginning. -/
  released : List Record

inductive Action where
  | request (command : Command)
  | advance (patient : Bool)
  | claim (length : Nat)
  /-- Fill and commit a claim that is held. -/
  | commit (index : Nat) (payload : Bytes)
  | abort (index : Nat)
  /-- One cycle. -/
  | drain
  /-- All cycles that can be done, as when the doorbell rings. -/
  | wake
  | raiseCommit (position : Int)
  /-- A closed stream is left with the beginning of its storage. -/
  | tear (rest : { t : Storage // t.Sound })

namespace Action

/-- A payload that is committed fits the length field of a frame. -/
def Fits : Action → Prop
  | commit _ payload => payload.length < 2 ^ 32
  | _ => True

def Tears : Action → Prop
  | tear _ => True
  | _ => False

instance : (action : Action) → Decidable action.Fits
  | .commit _ payload => inferInstanceAs (Decidable (payload.length < 2 ^ 32))
  | .request _ | .advance _ | .claim _ | .abort _ | .drain | .wake | .raiseCommit _ | .tear _ =>
    isTrue trivial

instance : (action : Action) → Decidable action.Tears
  | .tear _ => isTrue trivial
  | .request _ | .advance _ | .claim _ | .commit _ _ | .abort _ | .drain | .wake | .raiseCommit _ =>
    isFalse id

end Action

namespace Run

def stream (u : Run) : LogStream := u.lifecycle.stream

def appender (u : Run) : Appender := u.stream.appender

def buffer (u : Run) : WriteBuffer := u.stream.buffer

def stored (u : Run) : Bytes := u.stream.storage.stored

def onStream (u : Run) (f : LogStream → LogStream) : Run :=
  { u with lifecycle := u.lifecycle.onStream f }

def withBuffer (u : Run) (b : WriteBuffer) : Run := u.onStream (·.withBuffer fun _ => b)

/-- The log was cut: what is left of it are the records before the cut. -/
def cut (u : Run) (position : Int) : Run :=
  { u with
    settled := ((Frame.recordsOf 0 0 (u.settled ++ payloadsOf u.claims)).filter
      (·.position < position)).map Record.payload
    claims := u.claims.filter (·.fate = .held) }

/-- A held claim ended so. -/
def endClaim (u : Run) (index : Nat) (claim : Claim) (fate : Fate) (b : WriteBuffer) : Run :=
  { u.withBuffer b with
    held := u.held.eraseIdx index
    claims := u.claims.map (ClaimEntry.finish claim.slot fate) }

def act (u : Run) : Action → Run
  | .request command => { u with lifecycle := (u.lifecycle.request command).2 }
  | .advance patient =>
    match u.lifecycle.advance patient with
    | none => u
    | some next =>
      match u.lifecycle.cutAt next with
      | none => { u with lifecycle := next }
      | some position => { u.cut position with lifecycle := next }
  | .claim length =>
    match (WriteBuffer.tryClaim length).run u.buffer with
    | (.error _, b) => u.withBuffer b
    | (.ok claim, b) =>
      { u.withBuffer b with
        held := u.held ++ [claim]
        claims := u.claims ++ [⟨claim.slot, .held⟩] }
  | .commit index payload =>
    match u.held[index]? with
    | none => u
    | some claim =>
      if payload.length = claim.payload.length then
        u.endClaim index claim (.committed payload)
          (u.buffer.commit { claim with payload := payload })
      else u
  | .abort index =>
    match u.held[index]? with
    | none => u
    | some claim => u.endClaim index claim .aborted (u.buffer.abort claim)
  | .drain => u.onStream (·.withAppender Appender.cycle)
  | .wake => u.onStream (·.withAppender Appender.wake)
  | .raiseCommit position => u.onStream (LogStream.raiseCommit position)
  | .tear rest =>
    if u.stream.state = .closed ∧ rest.val.stored <+: u.stored then
      u.onStream (·.withStorage rest.val)
    else u

/-- The records of the slots that `v` does not have any more. -/
def releasedBefore (u v : Run) : List Record :=
  Frame.recordsOf u.appender.nextPosition u.stored.length
    (payloadsOf (entriesOf
      (u.buffer.slots.take (u.buffer.slots.length - v.buffer.slots.length))))

def step (u : Run) (action : Action) : Run :=
  { u.act action with
    released := (u.released ++ u.releasedBefore (u.act action)).filter
      (·.nextAddress ≤ (u.act action).stored.length) }

def after (u : Run) (actions : List Action) : Run := actions.foldl step u

/-- A stream is taken into use; its storage holds the frames of these payloads. -/
def start (s : LogStream) (initial : List Bytes) : Run where
  lifecycle := { stream := s }
  settled := initial
  released := Frame.recordsOf 0 0 initial

end Run

end PartitionLog
