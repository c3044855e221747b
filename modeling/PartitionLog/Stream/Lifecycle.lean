import PartitionLog.Completion
import PartitionLog.Stream

/-!
# The lifecycle of a log stream

Lifecycle commands are queued and carried out one at a time, in order; whoever asks gets a ticket
for the outcome. `Lifecycle.advance` takes one step of the command at hand. It stops while the
storage is gated in opening or closing, and while a closing stream still waits for claims. An open
that is queued or running is shared by everyone who asks for one meanwhile, and a close asked for
meanwhile fails. `Lifecycle.settle` goes on until nothing can be done.
-/

namespace PartitionLog

structure Job where
  ticket : Nat
  command : Command
  deriving DecidableEq, Repr

/-- How far the command at hand has come. -/
inductive Progress where
  /-- Taken from the queue. -/
  | taken
  /-- In the storage's open. -/
  | openingStorage
  /-- The storage is open. -/
  | startingUp
  /-- Opening failed; in the storage's close. -/
  | abandoning (cause : LogError)
  /-- The buffer is shut; waiting for claims to end. -/
  | awaitingClaims
  /-- In the storage's close. -/
  | closingStorage (outcome : Except LogError Unit)
  /-- Carried out. -/
  | handled (outcome : Except LogError Unit)
  /-- Carried out, and no longer an open that others share. -/
  | released (outcome : Except LogError Unit)

/-- An upper bound for the steps left to the command at hand. -/
def Progress.rank : Progress → Nat
  | .taken => 6
  | .openingStorage => 5
  | .startingUp => 4
  | .awaitingClaims => 4
  | .abandoning _ => 3
  | .closingStorage _ => 3
  | .handled _ => 2
  | .released _ => 1

structure Lifecycle where
  stream : LogStream
  queue : List Job := []
  current : Option (Job × Progress) := none
  /-- The ticket of the open that is queued or running. -/
  pendingOpen : Option Nat := none
  /-- The outcome for ticket `n` is the `n`-th element. -/
  tickets : List (Completion Unit) := []

namespace Lifecycle

def issue (l : Lifecycle) (completion : Completion Unit) : Nat × Lifecycle :=
  (l.tickets.length, { l with tickets := l.tickets ++ [completion] })

def ticket (l : Lifecycle) (n : Nat) : Completion Unit := l.tickets.getD n .pending

def onStream (l : Lifecycle) (f : LogStream → LogStream) : Lifecycle :=
  { l with stream := f l.stream }

/-! ## Requests -/

/-- Queue a command. -/
def submit (l : Lifecycle) (command : Command) : Nat × Lifecycle :=
  let (ticket, l) := l.issue .pending
  (ticket, { l with queue := l.queue ++ [⟨ticket, command⟩] })

def requestOpen (l : Lifecycle) : Nat × Lifecycle :=
  match l.pendingOpen with
  | some ticket => (ticket, l)
  | none =>
    let (ticket, l) := l.submit .openUp
    (ticket, { l with pendingOpen := some ticket })

def requestClose (l : Lifecycle) : Nat × Lifecycle :=
  if l.pendingOpen.isSome then
    l.issue (.finished (.error (.invalidState (.opening l.stream.name))))
  else if l.stream.state = .closed then l.issue (.finished (.ok ()))
  else l.submit .close

def request (l : Lifecycle) : Command → Nat × Lifecycle
  | .openUp => l.requestOpen
  | .close => l.requestClose
  | command => l.submit command

/-! ## Carrying out -/

/-- The command at hand got this far, and left the stream so. -/
def reach (l : Lifecycle) (job : Job) (progress : Progress) (stream : LogStream) : Lifecycle :=
  { l with stream := stream, current := some (job, progress) }

/-- Opening failed: stop the appender, then the storage is closed. -/
def giveUp (l : Lifecycle) (job : Job) (cause : LogError) (stream : LogStream) : Lifecycle :=
  l.reach job (.abandoning cause) (stream.withAppender Appender.stop)

/-- The first step of a command. -/
def begin (l : Lifecycle) (job : Job) : Lifecycle :=
  match job.command with
  | .openUp =>
    if l.stream.state = .opened then l.reach job (.handled (.ok ())) l.stream
    else if l.stream.storage.isOpen then
      l.reach job .startingUp { l.stream with state := .opening }
    else l.reach job .openingStorage { l.stream with state := .opening }
  | .close =>
    if l.stream.state = .closed then l.reach job (.handled (.ok ())) l.stream
    else
      l.reach job .awaitingClaims
        ({ l.stream with state := .closing }.withBuffer WriteBuffer.shut)
  | .stopAppender => l.reach job .awaitingClaims (l.stream.withBuffer WriteBuffer.shut)
  | .startAppender | .truncate _ =>
    let (outcome, stream) := (LogStream.perform job.command).run l.stream
    l.reach job (.handled outcome) stream

/-- The step after all claims ended, or the wait for them did. -/
def afterClaims (l : Lifecycle) (job : Job) : Lifecycle :=
  if job.command = .close then
    let (outcome, s) := l.stream.windDown
    l.reach job (.closingStorage outcome) s
  else
    let (outcome, s) := l.stream.settleClaims
    l.reach job (.handled outcome) s

/-- Record the outcome of a job. -/
def finish (l : Lifecycle) (job : Job) (outcome : Except LogError Unit) : Lifecycle :=
  { l with
    current := none
    tickets := l.tickets.modify job.ticket fun c => (c.finish outcome).2 }

/-- One step of the lifecycle; `none` if there is nothing to do or it has to wait, for a gated
storage or, while that is `patient`, for claims that did not end. -/
def advance (patient : Bool) (l : Lifecycle) : Option Lifecycle :=
  match l.current with
  | none =>
    match l.queue with
    | [] => none
    | job :: rest => some { l with queue := rest, current := some (job, .taken) }
  | some (job, .taken) => some (l.begin job)
  | some (job, .openingStorage) =>
    if l.stream.storage.isGated then none
    else
      match LogStream.openStorage.run l.stream with
      | (.ok (), s) => some (l.reach job .startingUp s)
      | (.error e, s) => some (l.giveUp job e s)
  | some (job, .startingUp) =>
    match LogStream.startUp.run l.stream with
    | (.ok (), s) => some (l.reach job (.handled (.ok ())) { s with state := .opened })
    | (.error e, s) => some (l.giveUp job e s)
  | some (job, .abandoning cause) =>
    if l.stream.storage.isGated then none
    else some (l.reach job (.handled (.error cause)) l.stream.closeStorage.2)
  | some (job, .awaitingClaims) =>
    if patient && decide (0 < l.stream.buffer.outstanding) then none
    else some (l.afterClaims job)
  | some (job, .closingStorage woundDown) =>
    if l.stream.storage.isGated then none
    else
      let (closed, s) := l.stream.closeStorage
      some (l.reach job (.handled (LogStream.both woundDown closed)) s)
  | some (job, .handled outcome) =>
    if job.command = .openUp then
      some { l with pendingOpen := none, current := some (job, .released outcome) }
    else some (l.finish job outcome)
  | some (job, .released outcome) => some (l.finish job outcome)

/-! ## Settling -/

def stepsLeft (l : Lifecycle) : Nat :=
  7 * l.queue.length + (l.current.map fun (_, progress) => progress.rank).getD 0

@[simp] theorem stepsLeft_reach (l : Lifecycle) (job : Job) (progress : Progress)
    (stream : LogStream) :
    (l.reach job progress stream).stepsLeft = 7 * l.queue.length + progress.rank := rfl

@[simp] theorem stepsLeft_finish (l : Lifecycle) (job : Job) (outcome : Except LogError Unit) :
    (l.finish job outcome).stepsLeft = 7 * l.queue.length := rfl

theorem stepsLeft_begin (l : Lifecycle) (job : Job) :
    (l.begin job).stepsLeft < 7 * l.queue.length + 6 := by
  unfold begin
  split
  · split
    · simp [Progress.rank]
    · split <;> simp [Progress.rank]
  · split <;> simp [Progress.rank]
  · simp [Progress.rank]
  · simp [Progress.rank]
  · simp [Progress.rank]

theorem stepsLeft_advance {patient : Bool} {l m : Lifecycle}
    (h : l.advance patient = some m) : m.stepsLeft < l.stepsLeft := by
  have hl : ∀ {job progress}, l.current = some (job, progress) →
      l.stepsLeft = 7 * l.queue.length + progress.rank := by
    intro job progress hc; simp [stepsLeft, hc]
  unfold advance at h
  split at h
  · next hc =>
    split at h
    · simp at h
    · next hq =>
      simp only [Option.some.injEq] at h; subst h
      simp [stepsLeft, hc, hq, Progress.rank]; omega
  · next hc =>
    simp only [Option.some.injEq] at h; subst h
    rw [hl hc]; exact stepsLeft_begin ..
  · next hc =>
    rw [hl hc]
    split at h
    · simp at h
    · split at h <;> (simp only [Option.some.injEq] at h; subst h; simp [giveUp, Progress.rank])
  · next hc =>
    rw [hl hc]
    split at h <;> (simp only [Option.some.injEq] at h; subst h; simp [giveUp, Progress.rank])
  · next hc =>
    rw [hl hc]
    split at h
    · simp at h
    · simp only [Option.some.injEq] at h; subst h; simp [Progress.rank]
  · next hc =>
    rw [hl hc]
    split at h
    · simp at h
    · simp only [Option.some.injEq] at h; subst h
      unfold afterClaims
      split <;> simp [Progress.rank]
  · next hc =>
    rw [hl hc]
    split at h
    · simp at h
    · simp only [Option.some.injEq] at h; subst h; simp [Progress.rank]
  · next hc =>
    rw [hl hc]
    split at h <;> (simp only [Option.some.injEq] at h; subst h)
    · simp [stepsLeft, Progress.rank]
    · simp [Progress.rank]
  · next hc =>
    rw [hl hc]
    simp only [Option.some.injEq] at h; subst h; simp [Progress.rank]

/-- Carry out commands until none is left or the one at hand has to wait. -/
def runQueue (patient : Bool) (l : Lifecycle) : Lifecycle :=
  match _h : l.advance patient with
  | none => l
  | some m => runQueue patient m
termination_by l.stepsLeft
decreasing_by exact stepsLeft_advance _h

/-- Carry out commands, then let the appender drain. -/
def settle (patient : Bool) (l : Lifecycle) : Lifecycle :=
  (l.runQueue patient).onStream (·.withAppender Appender.wake)

/-- Let the storage open and close again. -/
def ungate (l : Lifecycle) : Lifecycle :=
  l.onStream fun s => s.withStorage { s.storage with isGated := false }

/-- The last handle is gone: finish the queue and close what is not closed. -/
def retire (l : Lifecycle) : LogStream :=
  ((l.ungate.settle false).stream.closeStream).2

end Lifecycle

end PartitionLog
