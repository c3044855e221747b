import PartitionLog.Proofs.Commands
import PartitionLog.Proofs.Orderly
import PartitionLog.Proofs.Ring

/-!
# What a shut buffer refuses

An open stream refuses every write while its buffer is shut (`refuses_of_shut`). Beside the commands
of a stream nothing opens its buffer or shuts it, and nothing puts a slot into one that is shut: what
is done is `Undisturbed` by them (`Run.step_cases`).
-/

namespace PartitionLog

/-! ## A shut buffer -/

namespace WriteBuffer

variable {b after : WriteBuffer} {length : Nat}

/-- The slots are the same ones, whatever became of their claims. -/
def SameSlots (b after : WriteBuffer) : Prop :=
  after.slots.map Slot.id = b.slots.map Slot.id ∧ after.nextSlot = b.nextSlot

theorem SameSlots.refl (b : WriteBuffer) : b.SameSlots b := ⟨rfl, rfl⟩

theorem SameSlots.trans {c : WriteBuffer} (h : b.SameSlots c) (h' : c.SameSlots after) :
    b.SameSlots after :=
  ⟨h'.1.trans h.1, h'.2.trans h.2⟩

theorem finish_sameSlots (b : WriteBuffer) (slot : Nat) (outcome : SlotState) :
    b.SameSlots (b.finish slot outcome) :=
  ⟨(places_finish b slot outcome).1, nextSlot_finish b slot outcome⟩

/-- What a claim of this length is refused with while the buffer is shut. -/
def refusal (b : WriteBuffer) (length : Nat) : LogError :=
  match b.checkLength length with
  | .ok () => .invalidState .bufferClosed
  | .error e => e

theorem refusal_ne_backpressure (b : WriteBuffer) (length requested available : Nat) :
    b.refusal length ≠ .backpressure requested available := by
  unfold refusal checkLength
  by_cases hzero : length = 0
  · simp [hzero]
  · by_cases hlong : b.maxFragment < length
    · simp [hzero, hlong]
    · simp [hzero, hlong]

theorem tryClaim_shut (hshut : b.closed = true) (length : Nat) :
    (tryClaim length).run b = (.error (b.refusal length), b) := by
  unfold Attempt.run tryClaim refusal
  cases b.checkLength length with
  | error e => rfl
  | ok => simp only [hshut, if_true]

/-- Nobody waits for a buffer that is shut. -/
theorem claimWaiting_shut {σ : Type} {get : σ → WriteBuffer} {replace : WriteBuffer → σ → σ} {s : σ}
    (hshut : (get s).closed = true) (length : Nat) (turns : List (σ → σ)) :
    (claimWaiting get replace length turns).run s
      = (.error ((get s).refusal length), replace (get s) s) := by
  have hfirst : ((tryClaim length).within get replace).run s
      = (.error ((get s).refusal length), replace (get s) s) := by
    have hclaim := tryClaim_shut hshut length
    unfold Attempt.run at hclaim
    unfold Attempt.run Attempt.within
    rw [hclaim]
  cases turns with
  | nil => exact hfirst
  | cons turn turns =>
    unfold Attempt.run claimWaiting
    rw [hfirst]
    split
    · next hwaits =>
      simp only [Prod.mk.injEq, Except.error.injEq] at hwaits
      exact absurd hwaits.1 (refusal_ne_backpressure _ _ _ _)
    · rfl

end WriteBuffer

namespace LogStream

variable {s t : LogStream}

/-- No record gets into the buffer, with or without waiting for space. -/
def Refuses (s : LogStream) : Prop :=
  ∀ payload turns,
    (tryWrite payload).run s = (.error (s.buffer.refusal payload.length), s) ∧
      (writeWaiting turns payload).run s = (.error (s.buffer.refusal payload.length), s)

/-- A record that is not too long gets into the buffer, if there is space for it. -/
def Takes (s : LogStream) : Prop :=
  ∀ payload, s.buffer.checkLength payload.length = .ok () →
    (∃ t, (tryWrite payload).run s = (.ok (), t) ∧ s.buffer.nextSlot < t.buffer.nextSlot) ∨
      ∃ requested available,
        ((tryWrite payload).run s).1 = .error (.backpressure requested available)

theorem ensureOpen_of_opened (h : s.state = .opened) (request : StreamRequest) :
    s.ensureOpen request = .ok () := by
  unfold ensureOpen
  rw [if_pos h]

theorem refuses_of_shut (hopened : s.state = .opened) (hshut : s.buffer.closed = true) :
    s.Refuses := by
  intro payload turns
  constructor
  · have hput : (WriteBuffer.put payload).run s.buffer
        = (.error (s.buffer.refusal payload.length), s.buffer) := by
      unfold Attempt.run WriteBuffer.put
      rw [WriteBuffer.tryClaim_shut hshut]
    unfold Attempt.run tryWrite
    rw [ensureOpen_of_opened hopened, hput]
    rfl
  · unfold Attempt.run writeWaiting
    rw [ensureOpen_of_opened hopened]
    dsimp only
    rw [WriteBuffer.claimWaiting_shut hshut]
    rfl

theorem takes_of_open (hopened : s.state = .opened) (hopen : s.buffer.closed = false) :
    s.Takes := by
  intro payload hlength
  have hclaim := WriteBuffer.tryClaim_run hopen hlength
  unfold Attempt.run tryWrite WriteBuffer.put
  rw [ensureOpen_of_opened hopened]
  generalize hreserve : (WriteBuffer.reserve (Frame.lengthFor payload.length)).run s.buffer
    = reserved at hclaim
  obtain ⟨answer, b⟩ := reserved
  cases answer with
  | error e =>
    obtain ⟨requested, available, rfl⟩ := WriteBuffer.reserve_backpressure hreserve
    refine .inr ⟨requested, available, ?_⟩
    dsimp only [Attempt.run] at hclaim ⊢
    rw [hclaim]
  | ok place =>
    obtain ⟨new, hclaimed⟩ := WriteBuffer.reserve_ok hreserve
    refine .inl ⟨_, by dsimp only [Attempt.run] at hclaim ⊢; rw [hclaim], ?_⟩
    have hnext := hclaimed.next
    have hfresh := hclaimed.fresh
    show s.buffer.nextSlot < (WriteBuffer.finish ..).nextSlot
    rw [WriteBuffer.nextSlot_finish]
    omega

end LogStream

/-! ## What the appender leaves alone -/

namespace Appender

variable {a b : Appender}

/-- The appender neither opens nor shuts its buffer. -/
def KeepsTerms (a b : Appender) : Prop := a.buffer.SameTerms b.buffer

instance : IsPreorder Appender KeepsTerms where
  refl a := .refl a.buffer
  trans _ _ _ := .trans

theorem atCycle_keepsTerms : AtCycle KeepsTerms where
  append _ a := .refl a.buffer
  flush a := .refl a.buffer
  truncate _ a := .refl a.buffer
  note _ _ _ a := .refl a.buffer
  count a _ := .refl a.buffer
  mark a _ := .refl a.buffer
  move a _ := .refl a.buffer
  free _ _ := ⟨rfl, rfl, rfl⟩

theorem atWork_keepsTerms : AtWork KeepsTerms where
  once := atCycle_keepsTerms.drainOnce
  flush a := .refl a.buffer
  halt a _ := .refl a.buffer
  look a := .refl a.buffer
  answer _ := ⟨rfl, rfl, rfl⟩
  rest a _ := .refl a.buffer

/-- Stopping a stopped appender leaves all but its phase alone. -/
theorem stop_of_rests (h : a.isRunning = false) :
    a.stop.buffer = a.buffer ∧ a.stop.staleBlock = a.staleBlock := by
  simp [stop, isLive, h]

/-- Only a stale block keeps an appender from starting, and then it stays. -/
theorem start_fails {e : LogError} (h : start.run a = (.error e, b)) :
    b.isRunning = false ∧ b.buffer = a.buffer ∧ b.staleBlock = a.staleBlock ∧
      a.staleBlock ≠ none := by
  obtain ⟨-, hr, -⟩ | ⟨-, e', hdiscard, -⟩ | ⟨-, c, -, hr, -⟩ := start_cases h
  · simp at hr
  · obtain ⟨-, hr, -⟩ | ⟨address, t, hstale, ⟨-, hr, -⟩ | ⟨e', -, -, rfl⟩⟩ :=
      discardStale_cases hdiscard
    · simp at hr
    · simp at hr
    · exact ⟨rfl, rfl, rfl, fun hnone => by simp [hnone] at hstale⟩
  · simp at hr

end Appender

/-! ## What others do meanwhile -/

namespace LogStream

variable {s t : LogStream}

/-- What is done on a stream beside its commands: a buffer that is shut stays so and takes nothing, and
an appender that was stopped does nothing. -/
structure Undisturbed (s t : LogStream) : Prop where
  state : t.state = s.state
  closed : t.buffer.closed = s.buffer.closed
  rests : s.appender.isRunning = false →
    t.appender.isRunning = false ∧ t.appender.staleBlock = s.appender.staleBlock
  slots : s.appender.isRunning = false → s.buffer.closed = true → s.buffer.SameSlots t.buffer

theorem Undisturbed.refl (s : LogStream) : s.Undisturbed s :=
  ⟨rfl, rfl, fun h => ⟨h, rfl⟩, fun _ _ => .refl _⟩

theorem Undisturbed.withBuffer {b : WriteBuffer} (hterms : s.buffer.SameTerms b)
    (hslots : s.buffer.closed = true → s.buffer.SameSlots b) :
    s.Undisturbed (s.withBuffer fun _ => b) :=
  ⟨rfl, hterms.closed, fun h => ⟨h, rfl⟩, fun _ => hslots⟩

theorem Undisturbed.withAppender {f : Appender → Appender}
    (hterms : s.buffer.SameTerms (f s.appender).buffer)
    (hrests : s.appender.isRunning = false → f s.appender = s.appender) :
    s.Undisturbed (s.withAppender f) := by
  refine ⟨rfl, hterms.closed, fun h => ?_, fun h _ => ?_⟩
  · show (f s.appender).isRunning = false ∧ (f s.appender).staleBlock = _
    rw [hrests h]
    exact ⟨h, rfl⟩
  · show s.buffer.SameSlots (f s.appender).buffer
    rw [hrests h]
    exact .refl _

end LogStream

/-- The command that the next step of a job begins, with the stream as it finds it. -/
def Progress.begins (job : Job) (s : LogStream) : Progress → List (Command × LogStream)
  | .taken => [(job.command, s)]
  | _ => []

namespace Lifecycle

/-- The command that the next step begins, with the stream as it finds it. -/
def begins (l : Lifecycle) : List (Command × LogStream) :=
  match l.current with
  | none => []
  | some (job, progress) => progress.begins job l.stream

theorem begins_of_stuck {l : Lifecycle} {patient : Bool} (h : l.advance patient = none) :
    l.begins = [] := by
  unfold advance at h
  unfold begins
  cases hc : l.current with
  | none => rfl
  | some current =>
    obtain ⟨job, progress⟩ := current
    cases progress with
    | taken => simp [hc] at h
    | _ => rfl

end Lifecycle

namespace Run

variable {u : Run} {action : Action}

/-- Only a step of the lifecycle works on the command at hand. -/
theorem act_undisturbed (u : Run) (h : ∀ patient, action ≠ .advance patient) :
    (u.act action).lifecycle.current = u.lifecycle.current ∧
      u.stream.Undisturbed (u.act action).stream := by
  cases action with
  | request command =>
    refine ⟨u.lifecycle.request_current command, ?_⟩
    show u.stream.Undisturbed (u.lifecycle.request command).2.stream
    rw [Lifecycle.request_stream]
    exact .refl _
  | advance patient => exact absurd rfl (h patient)
  | claim length =>
    have hslots {r : Except LogError Claim} {b : WriteBuffer}
        (hclaim : (WriteBuffer.tryClaim length).run u.stream.buffer = (r, b)) :
        u.stream.Undisturbed (u.withBuffer b).stream := by
      refine .withBuffer (WriteBuffer.tryClaim_terms hclaim) fun hshut => ?_
      rw [WriteBuffer.tryClaim_shut hshut] at hclaim
      simp only [Prod.mk.injEq] at hclaim
      obtain ⟨-, rfl⟩ := hclaim
      exact .refl _
    unfold act
    dsimp only
    split
    · next hclaim => exact ⟨rfl, hslots hclaim⟩
    · next hclaim => exact ⟨rfl, hslots hclaim⟩
  | commit index payload =>
    unfold act
    dsimp only
    split
    · exact ⟨rfl, .refl _⟩
    · split
      · exact ⟨rfl, .withBuffer (WriteBuffer.finish_terms ..) fun _ =>
          WriteBuffer.finish_sameSlots ..⟩
      · exact ⟨rfl, .refl _⟩
  | abort index =>
    unfold act
    dsimp only
    split
    · exact ⟨rfl, .refl _⟩
    · exact ⟨rfl, .withBuffer (WriteBuffer.finish_terms ..) fun _ =>
        WriteBuffer.finish_sameSlots ..⟩
  | drain =>
    exact ⟨rfl, .withAppender (Appender.atWork_keepsTerms.cycle _) Appender.cycle_of_rests⟩
  | wake =>
    exact ⟨rfl, .withAppender (Appender.atWork_keepsTerms.wake _) Appender.wake_of_rests⟩
  | raiseCommit position => exact ⟨rfl, rfl, rfl, fun h => ⟨h, rfl⟩, fun _ _ => .refl _⟩
  | tear rest =>
    unfold act
    dsimp only
    split
    · exact ⟨rfl, rfl, rfl, fun h => ⟨h, rfl⟩, fun _ _ => .refl _⟩
    · exact ⟨rfl, .refl _⟩

/-- The command that an action begins, with the stream as it finds it. -/
def undertakes (u : Run) : Action → List (Command × LogStream)
  | .advance _ => u.lifecycle.begins
  | _ => []

/-- A step of a run is a step of its lifecycle, or leaves the command at hand alone. -/
theorem step_cases (u : Run) (action : Action) :
    (u.lifecycle.Step (u.step action).lifecycle ∧ u.undertakes action = u.lifecycle.begins) ∨
      (u.step action).lifecycle.current = u.lifecycle.current ∧
        u.stream.Undisturbed (u.step action).stream ∧ u.undertakes action = [] := by
  show (u.lifecycle.Step (u.act action).lifecycle ∧ u.undertakes action = u.lifecycle.begins) ∨
    (u.act action).lifecycle.current = u.lifecycle.current ∧
      u.stream.Undisturbed (u.act action).stream ∧ u.undertakes action = []
  by_cases hother : ∀ patient, action ≠ .advance patient
  · obtain ⟨hcurrent, hs⟩ := act_undisturbed u hother
    refine .inr ⟨hcurrent, hs, ?_⟩
    cases action with
    | advance patient => exact absurd rfl (hother patient)
    | _ => rfl
  · simp only [ne_eq, not_forall, not_not] at hother
    obtain ⟨patient, rfl⟩ := hother
    unfold act
    dsimp only
    split
    · next hnone => exact .inr ⟨rfl, .refl _, Lifecycle.begins_of_stuck hnone⟩
    · next next hnext =>
      split
      · exact .inl ⟨Lifecycle.advance_cases hnext, rfl⟩
      · exact .inl ⟨Lifecycle.advance_cases hnext, rfl⟩

/-- A write is a claim that is filled and committed at once. -/
theorem stream_write (hopened : u.stream.state = .opened) (payload : Bytes) :
    (u.after [.claim payload.length, .commit u.held.length payload]).stream
      = ((LogStream.tryWrite payload).run u.stream).2 := by
  show ((u.step (.claim payload.length)).act (.commit u.held.length payload)).stream = _
  unfold Attempt.run LogStream.tryWrite WriteBuffer.put
  rw [LogStream.ensureOpen_of_opened hopened]
  dsimp only [Attempt.run]
  unfold step
  generalize hclaim : WriteBuffer.tryClaim payload.length u.stream.buffer = claimed
  obtain ⟨answer, b⟩ := claimed
  cases answer with
  | error e =>
    have hact : u.act (.claim payload.length) = u.withBuffer b := by
      unfold act
      dsimp only
      rw [show (WriteBuffer.tryClaim payload.length).run u.buffer = (.error e, b) from hclaim]
    have hheld : (u.withBuffer b).held[u.held.length]? = none := List.getElem?_eq_none (Nat.le_refl _)
    rw [hact]
    unfold act
    dsimp only
    rw [hheld]
    rfl
  | ok claim =>
    have hact : u.act (.claim payload.length) = { u.withBuffer b with
        held := u.held ++ [claim], claims := u.claims ++ [⟨claim.slot, .held⟩] } := by
      unfold act
      dsimp only
      rw [show (WriteBuffer.tryClaim payload.length).run u.buffer = (.ok claim, b) from hclaim]
    have hheld : (u.held ++ [claim])[u.held.length]? = some claim := by simp
    have hlength : payload.length = claim.payload.length :=
      (WriteBuffer.tryClaim_ok hclaim).2.1.symm
    rw [hact]
    unfold act
    dsimp only
    rw [hheld]
    dsimp only
    rw [if_pos hlength]
    rfl

end Run

end PartitionLog
