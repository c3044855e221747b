import PartitionLog.Proofs.AppenderRuns
import PartitionLog.Proofs.ToolStreams

/-!
# The pace of the appender

The tool has each record drained before it writes the next one. The appender works beside the
writer, though, and may as well take its turns at other times: while a record waits for space, while
it is filled in, and after it was written, as many as it gets (`WritePace`). What it leaves is drained
when the stream is closed. `runAt` carries out an invocation at given paces, and `runToolAt` the
arguments of the tool; the tool's own way is one of them (`run_eq_runAt`, `runTool_eq_runToolAt`).
-/

namespace PartitionLog

namespace Appender

/-- What an appender does by itself. -/
inductive Turn where
  | cycle
  | wake
  deriving DecidableEq, Repr

def Turn.act (a : Appender) : Turn → Appender
  | cycle => a.cycle
  | wake => a.wake

def takeTurns (turns : List Turn) (a : Appender) : Appender := turns.foldl Turn.act a

/-- What an appender keeps through all that it does by itself: a cycle that goes well, one at which it
halts, and looking at the buffer. -/
structure KeepsAtWork (P : Appender → Prop) : Prop where
  moved : ∀ {a b}, P a → a.isLive = true → drainOnce.run a = (.ok true, b) → P b
  halted : ∀ {a b e}, P a → a.isLive = true → drainOnce.run a = (.error e, b) → P (b.halt e)
  look : ∀ {a : Appender}, P a → P { a with isFresh := false }
  answer : ∀ {a}, P a → P a.answerDoorbell

namespace KeepsAtWork

variable {P : Appender → Prop} {a : Appender}

theorem drain (h : KeepsAtWork P) (ha : P a) (hlive : a.isLive = true) : P (drain a).2 := by
  fun_induction Appender.drain a with
  | case1 a b hrun ih =>
    exact ih (h.moved ha hlive hrun) ((StandsAs.drainOnce hrun).isLive.trans hlive)
  | case2 a b hrun => exact eq_of_drainOnce_false hrun ▸ ha
  | case3 a e b hrun => exact h.halted ha hlive hrun

theorem cycle (h : KeepsAtWork P) (ha : P a) : P a.cycle := by
  cases hlive : a.isLive with
  | false => rwa [cycle_of_idle hlive]
  | true =>
    generalize hrun : drainOnce.run a = result
    obtain ⟨r, b⟩ := result
    cases r with
    | error e =>
      rw [cycle_of_error hlive hrun]
      exact h.halted ha hlive hrun
    | ok drained =>
      rw [cycle_of_ok hlive hrun]
      cases drained with
      | true => exact h.moved ha hlive hrun
      | false => exact eq_of_drainOnce_false hrun ▸ ha

theorem wake (h : KeepsAtWork P) (ha : P a) : P a.wake := by
  cases hlive : a.isLive with
  | false => rwa [wake_of_idle hlive]
  | true =>
    unfold Appender.wake
    rw [hlive, if_neg (by simp)]
    split
    · have hdrained := h.drain (h.look ha) hlive
      split
      · next hdrain =>
        rw [hdrain] at hdrained
        exact h.answer hdrained
      · next hdrain =>
        rw [hdrain] at hdrained
        exact hdrained
    · exact h.drain (h.answer ha) hlive

theorem takeTurns (h : KeepsAtWork P) (ha : P a) (turns : List Turn) : P (a.takeTurns turns) := by
  unfold Appender.takeTurns
  induction turns generalizing a with
  | nil => exact ha
  | cons turn rest ih =>
    refine ih ?_
    cases turn with
    | cycle => exact h.cycle ha
    | wake => exact h.wake ha

end KeepsAtWork

end Appender

namespace WriteBuffer

/-- What turns and refused claims keep still holds when waiting for space has failed, or where the claim
is made. -/
theorem claimWaiting_cases {σ : Type} {get : σ → WriteBuffer} {replace : WriteBuffer → σ → σ}
    {P : σ → Prop} {length : Nat} {turns : List (σ → σ)} {s t : σ} {r : Except LogError Claim}
    (hrefused : ∀ s e b, P s → (tryClaim length).run (get s) = (.error e, b) → P (replace b s))
    (hturns : ∀ turn ∈ turns, ∀ s, P s → P (turn s)) (h : P s)
    (hc : (claimWaiting get replace length turns).run s = (r, t)) :
    (∃ e, r = .error e ∧ P t) ∨ ∃ claim u b, r = .ok claim ∧ P u ∧
      (tryClaim length).run (get u) = (.ok claim, b) ∧ t = replace b u := by
  have hfirst : ∀ {s t r}, P s → ((tryClaim length).within get replace).run s = (r, t) →
      (∃ e, r = .error e ∧ P t) ∨ ∃ claim u b, r = .ok claim ∧ P u ∧
        (tryClaim length).run (get u) = (.ok claim, b) ∧ t = replace b u := by
    intro s t r h hc
    generalize htry : (tryClaim length).run (get s) = tried
    obtain ⟨answer, b⟩ := tried
    unfold Attempt.run at htry
    unfold Attempt.run Attempt.within at hc
    rw [htry, Prod.mk.injEq] at hc
    obtain ⟨rfl, rfl⟩ := hc
    cases answer with
    | error e => exact .inl ⟨e, rfl, hrefused s e b h htry⟩
    | ok claim => exact .inr ⟨claim, s, b, rfl, h, htry, rfl⟩
  induction turns generalizing s t r with
  | nil => exact hfirst h hc
  | cons turn rest ih =>
    unfold Attempt.run claimWaiting at hc
    generalize htried : ((tryClaim length).within get replace).run s = tried at hc
    obtain ⟨answer, u⟩ := tried
    have hleft := hfirst h htried
    split at hc
    · next requested available v hwaits =>
      simp only [Prod.mk.injEq] at hwaits
      obtain ⟨rfl, rfl⟩ := hwaits
      obtain ⟨-, -, hu⟩ | ⟨claim, -, -, hbad, -⟩ := hleft
      · -- the turn is taken, and the claim is tried again
        have hagain : ∀ {t r}, (claimWaiting get replace length rest).run (turn u) = (r, t) → _ :=
          ih (fun other ho => hturns other (List.mem_cons_of_mem _ ho))
            (hturns turn List.mem_cons_self _ hu)
        split at hc
        · next hlast =>
          simp only [Prod.mk.injEq] at hc
          obtain ⟨rfl, rfl⟩ := hc
          obtain ⟨-, -, hv⟩ | ⟨claim, -, -, hbad, -⟩ := hagain hlast
          · exact .inl ⟨_, rfl, hv⟩
          · simp at hbad
        · exact hagain hc
      · simp at hbad
    · simp only [Prod.mk.injEq] at hc
      obtain ⟨rfl, rfl⟩ := hc
      exact hleft

end WriteBuffer

namespace LogStream

open Appender (Turn)

/-- The turns of the appender while a record is written: as long as there is no space for it, while it
is filled in, and afterwards. -/
structure WritePace where
  waiting : List Turn := []
  filling : List Turn := []
  after : List Turn := []

/-- Write a record, with an appender that takes turns at this pace. -/
def writeAt (pace : WritePace) (payload : Bytes) : Attempt LogStream Unit := fun s =>
  match s.ensureOpen .write with
  | .error e => (.error e, s)
  | .ok () =>
    match (WriteBuffer.claimWaiting buffer (fun b s => s.withBuffer fun _ => b) payload.length
      (pace.waiting.map fun turn s => s.withAppender turn.act)).run s with
    | (.error e, s) => (.error e, s)
    | (.ok claim, s) =>
      let filled := (s.withAppender (Appender.takeTurns pace.filling)).withBuffer
        (·.commit { claim with payload := payload })
      (.ok (), filled.withAppender (Appender.takeTurns pace.after))

/-- The tool's own pace: a record is drained when it was written. -/
def WritePace.atOnce : WritePace := { after := [.wake] }

theorem write_eq_writeAt (payload : Bytes) : write payload = writeAt .atOnce payload := by
  funext s
  have hnone :
      (WritePace.atOnce.waiting.map fun turn (s : LogStream) => s.withAppender turn.act) = [] := rfl
  have hat : writeAt .atOnce payload s = (match (writeWaiting [] payload).run s with
      | (.ok _, t) => (.ok (), t.withAppender Appender.wake)
      | (.error e, t) => (.error e, t)) := by
    unfold Attempt.run writeAt writeWaiting
    rw [hnone]
    cases s.ensureOpen .write with
    | error e => rfl
    | ok =>
      dsimp only
      generalize (WriteBuffer.claimWaiting buffer _ payload.length []).run s = claimed
      obtain ⟨answer, u⟩ := claimed
      cases answer with
      | error e => rfl
      | ok claim => rfl
  rw [hat, writeWaiting_nil]
  show (write payload).run s = _
  rw [write, Attempt.run_bind]
  generalize (tryWrite payload).run s = written
  obtain ⟨answer, u⟩ := written
  cases answer with
  | error e => rfl
  | ok done => rfl

end LogStream

namespace CommandLine

open LogStream (WritePace)

/-- Append records, the one with each number at the pace for it. -/
def appendAt (paces : Nat → WritePace) (payloads : List Bytes) : Attempt Console Unit := do
  let first := (← .get).stream.appender.nextPosition
  let next := first + payloads.flatten.length
  payloads.zipIdx.forM fun record => onStream (LogStream.writeAt (paces record.2) record.1)
  onStream LogStream.closeStream
  say s!"appended {payloads.length} records at positions [{first}, {next})"

theorem append_eq_appendAt (payloads : List Bytes) :
    append payloads = appendAt (fun _ => .atOnce) payloads := by
  have hforM (n : Nat) : (payloads.forM fun payload => onStream (LogStream.write payload))
      = (payloads.zipIdx n).forM fun record => onStream (LogStream.writeAt .atOnce record.1) := by
    induction payloads generalizing n with
    | nil => rfl
    | cons x rest ih =>
      show (onStream (LogStream.write x) >>= fun _ => _)
        = (onStream (LogStream.writeAt .atOnce x) >>= fun _ => _)
      rw [LogStream.write_eq_writeAt x, ih]
  unfold append appendAt
  rw [hforM 0]

/-- Carry out an order. Only one that appends gives the appender anything to do. -/
def Order.performAt (paces : Nat → WritePace) : Order → Attempt Console Unit
  | .append payloads _ => appendAt paces (payloads.map Bytes.ofText)
  | .dump start preview => CommandLine.dump start preview
  | .truncate position commit => CommandLine.truncate position commit

theorem Order.perform_eq_performAt (order : Order) :
    order.perform = order.performAt fun _ => .atOnce := by
  cases order with
  | append words timeout => exact append_eq_appendAt _
  | dump start preview => rfl
  | truncate position commit => rfl

namespace Invocation

/-- Run an invocation that writes the record with each number at the pace for it. -/
def runAt (paces : Nat → WritePace) (i : Invocation) (files : FileSystem) : Report × FileSystem :=
  i.runTask (i.order.performAt paces) files

theorem run_eq_runAt (i : Invocation) (files : FileSystem) :
    i.run files = i.runAt (fun _ => .atOnce) files := by
  rw [run, runAt, Order.perform_eq_performAt]

end Invocation

/-- Run the tool, with the record of each number written at the pace for it. -/
def runToolAt (paces : Nat → WritePace) (arguments : List String) (files : FileSystem) :
    Report × FileSystem :=
  match Request.read arguments with
  | .ok (.run i) => i.runAt paces files
  | _ => runTool arguments files

theorem runToolAt_of_read (paces : Nat → WritePace) {arguments : List String} {i : Invocation}
    (h : Request.read arguments = .ok (.run i)) (files : FileSystem) :
    runToolAt paces arguments files = i.runAt paces files := by
  rw [runToolAt, h]

theorem runTool_eq_runToolAt (arguments : List String) (files : FileSystem) :
    runTool arguments files = runToolAt (fun _ => .atOnce) arguments files := by
  unfold runToolAt
  split
  · next i h => rw [runTool, h, ← i.run_eq_runAt]
  · rfl

end CommandLine

end PartitionLog
