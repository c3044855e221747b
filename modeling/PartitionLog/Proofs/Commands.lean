import PartitionLog.Stream.Lifecycle

/-!
# The steps of lifecycle commands

`advance_cases` tells everything that a step of the lifecycle can do: take the next job, work on the
one at hand (`Worked`), release an open that others share, or finish a ticket. Nothing that is done
on a job changes what comes of it in the end (`Worked.remainder_eq`): carried out step by step it
comes to the same as at once.
-/

namespace PartitionLog

namespace Lifecycle

/-! ## What a request does not do -/

/-- A request is queued or answered; it does nothing to the stream or to the command at hand. -/
theorem request_aside (l : Lifecycle) (command : Command) :
    (l.request command).2.stream = l.stream ∧ (l.request command).2.current = l.current := by
  cases command with
  | openUp =>
    unfold request requestOpen
    dsimp only
    split
    · exact ⟨rfl, rfl⟩
    · exact ⟨rfl, rfl⟩
  | close =>
    unfold request requestClose
    dsimp only
    split
    · exact ⟨rfl, rfl⟩
    · split
      · exact ⟨rfl, rfl⟩
      · exact ⟨rfl, rfl⟩
  | _ => exact ⟨rfl, rfl⟩

theorem request_stream (l : Lifecycle) (command : Command) :
    (l.request command).2.stream = l.stream := (l.request_aside command).1

theorem request_current (l : Lifecycle) (command : Command) :
    (l.request command).2.current = l.current := (l.request_aside command).2

/-! ## What a step can do -/

/-- A step of `job`, which had come so far with the stream `s`: how far it comes, and the stream after
it. -/
inductive Worked (job : Job) (s : LogStream) : Progress → Progress → LogStream → Prop where
  | openAlready (hc : job.command = .openUp) (hs : s.state = .opened) :
    Worked job s .taken (.handled (.ok ())) s
  | entersStorage (hc : job.command = .openUp) (hs : s.state ≠ .opened)
    (ho : s.storage.isOpen = false) :
    Worked job s .taken .openingStorage { s with state := .opening }
  | findsStorage (hc : job.command = .openUp) (hs : s.state ≠ .opened)
    (ho : s.storage.isOpen = true) :
    Worked job s .taken .startingUp { s with state := .opening }
  | closedAlready (hc : job.command = .close) (hs : s.state = .closed) :
    Worked job s .taken (.handled (.ok ())) s
  | shuts (hc : job.command = .close) (hs : s.state ≠ .closed) :
    Worked job s .taken .awaitingClaims
      ({ s with state := .closing }.withBuffer WriteBuffer.shut)
  | shutsAppender (hc : job.command = .stopAppender) :
    Worked job s .taken .awaitingClaims (s.withBuffer WriteBuffer.shut)
  | atOnce (hc : job.command = .startAppender ∨ ∃ position, job.command = .truncate position)
    {outcome : Except LogError Unit} {t : LogStream}
    (h : (LogStream.perform job.command).run s = (outcome, t)) :
    Worked job s .taken (.handled outcome) t
  | storageOpened {t : LogStream} (h : LogStream.openStorage.run s = (.ok (), t)) :
    Worked job s .openingStorage .startingUp t
  | storageFailed {e : LogError} {t : LogStream}
    (h : LogStream.openStorage.run s = (.error e, t)) :
    Worked job s .openingStorage (.abandoning e) (t.withAppender Appender.stop)
  | started {t : LogStream} (h : LogStream.startUp.run s = (.ok (), t)) :
    Worked job s .startingUp (.handled (.ok ())) { t with state := .opened }
  | startFailed {e : LogError} {t : LogStream} (h : LogStream.startUp.run s = (.error e, t)) :
    Worked job s .startingUp (.abandoning e) (t.withAppender Appender.stop)
  | abandoned (cause : LogError) :
    Worked job s (.abandoning cause) (.handled (.error cause)) s.closeStorage.2
  | woundDown (hc : job.command = .close) :
    Worked job s .awaitingClaims (.closingStorage s.windDown.1) s.windDown.2
  | settled (hc : job.command ≠ .close) :
    Worked job s .awaitingClaims (.handled s.settleClaims.1) s.settleClaims.2
  | storageClosed (woundDown : Except LogError Unit) :
    Worked job s (.closingStorage woundDown)
      (.handled (LogStream.both woundDown s.closeStorage.1)) s.closeStorage.2

theorem begin_worked (l : Lifecycle) (job : Job) :
    ∃ progress s, Worked job l.stream .taken progress s ∧ l.begin job = l.reach job progress s := by
  obtain ⟨ticket, command⟩ := job
  cases command with
  | openUp =>
    unfold begin
    dsimp only
    split
    · next hs => exact ⟨_, _, .openAlready rfl hs, rfl⟩
    · next hs =>
      split
      · next ho => exact ⟨_, _, .findsStorage rfl hs ho, rfl⟩
      · next ho => exact ⟨_, _, .entersStorage rfl hs (by simpa using ho), rfl⟩
  | close =>
    unfold begin
    dsimp only
    split
    · next hs => exact ⟨_, _, .closedAlready rfl hs, rfl⟩
    · next hs => exact ⟨_, _, .shuts rfl hs, rfl⟩
  | startAppender => exact ⟨_, _, .atOnce (.inl rfl) rfl, rfl⟩
  | stopAppender => exact ⟨_, _, .shutsAppender rfl, rfl⟩
  | truncate position => exact ⟨_, _, .atOnce (.inr ⟨position, rfl⟩) rfl, rfl⟩

theorem afterClaims_worked (l : Lifecycle) (job : Job) :
    ∃ progress s, Worked job l.stream .awaitingClaims progress s ∧
      l.afterClaims job = l.reach job progress s := by
  unfold afterClaims
  split
  · next hc => exact ⟨_, _, .woundDown hc, rfl⟩
  · next hc => exact ⟨_, _, .settled hc, rfl⟩

/-- A step of a lifecycle, and what there was to do it with. -/
inductive Step (l : Lifecycle) : Lifecycle → Prop where
  | take {job : Job} {rest : List Job} (hc : l.current = none) (hq : l.queue = job :: rest) :
    Step l { l with queue := rest, current := some (job, .taken) }
  | work {job : Job} {before after : Progress} {s : LogStream}
    (hc : l.current = some (job, before)) (h : Worked job l.stream before after s) :
    Step l (l.reach job after s)
  | release {job : Job} {outcome : Except LogError Unit}
    (hc : l.current = some (job, .handled outcome)) (ho : job.command = .openUp) :
    Step l { l with pendingOpen := none, current := some (job, .released outcome) }
  | finish {job : Job} {outcome : Except LogError Unit}
    (hc : (l.current = some (job, .handled outcome) ∧ job.command ≠ .openUp) ∨
      l.current = some (job, .released outcome)) :
    Step l (l.finish job outcome)

theorem advance_cases {l next : Lifecycle} {patient : Bool} (h : l.advance patient = some next) :
    l.Step next := by
  unfold advance at h
  cases hc : l.current with
  | none =>
    simp only [hc] at h
    split at h
    · simp at h
    · next job rest hq =>
      simp only [Option.some.injEq] at h
      exact h ▸ .take hc hq
  | some current =>
    obtain ⟨job, progress⟩ := current
    simp only [hc] at h
    cases progress with
    | taken =>
      obtain ⟨after, s, hworked, hreached⟩ := l.begin_worked job
      simp only [Option.some.injEq, hreached] at h
      exact h ▸ .work hc hworked
    | openingStorage =>
      dsimp only at h
      split at h
      · simp at h
      · split at h
        · next s hopen =>
          simp only [Option.some.injEq] at h
          exact h ▸ .work hc (.storageOpened hopen)
        · next e s hopen =>
          simp only [Option.some.injEq] at h
          exact h ▸ .work hc (.storageFailed hopen)
    | startingUp =>
      dsimp only at h
      split at h
      · next s hup =>
        simp only [Option.some.injEq] at h
        exact h ▸ .work hc (.started hup)
      · next e s hup =>
        simp only [Option.some.injEq] at h
        exact h ▸ .work hc (.startFailed hup)
    | abandoning cause =>
      dsimp only at h
      split at h
      · simp at h
      · simp only [Option.some.injEq] at h
        exact h ▸ .work hc (.abandoned cause)
    | awaitingClaims =>
      obtain ⟨after, s, hworked, hreached⟩ := l.afterClaims_worked job
      dsimp only at h
      split at h
      · simp at h
      · simp only [Option.some.injEq, hreached] at h
        exact h ▸ .work hc hworked
    | closingStorage outcome =>
      dsimp only at h
      split at h
      · simp at h
      · simp only [Option.some.injEq] at h
        exact h ▸ .work hc (.storageClosed outcome)
    | handled outcome =>
      dsimp only at h
      split at h
      · next ho =>
        simp only [Option.some.injEq] at h
        exact h ▸ .release hc ho
      · next ho =>
        simp only [Option.some.injEq] at h
        exact h ▸ .finish (.inl ⟨hc, ho⟩)
    | released outcome =>
      simp only [Option.some.injEq] at h
      exact h ▸ .finish (.inr hc)

/-- A lifecycle that nothing holds up goes on as long as there is anything to do. -/
theorem idle_of_advance_eq_none {l : Lifecycle} (hgate : l.stream.storage.isGated = false)
    (h : l.advance false = none) : l.current = none ∧ l.queue = [] := by
  unfold advance at h
  cases hc : l.current with
  | none =>
    simp only [hc] at h
    split at h
    · next hq => exact ⟨rfl, hq⟩
    · simp at h
  | some current =>
    obtain ⟨job, progress⟩ := current
    cases progress <;> simp only [hc, hgate] at h <;> (repeat' split at h) <;> simp_all

/-! ## What is left of a command -/

/-- What comes of opening the storage and starting up, or of only the latter. -/
def opened (result : Except LogError Unit × LogStream) : Except LogError Unit × LogStream :=
  match result with
  | (.ok (), s) => (.ok (), { s with state := .opened })
  | (.error e, s) => (.error e, (s.withAppender Appender.stop).closeStorage.2)

/-- What comes of a command that has come so far, if nobody else uses the stream. -/
def remainder (job : Job) : Progress → LogStream → Except LogError Unit × LogStream
  | .taken, s => (LogStream.perform job.command).run s
  | .openingStorage, s =>
    opened ((do LogStream.openStorage; LogStream.startUp : Attempt LogStream Unit).run s)
  | .startingUp, s => opened (LogStream.startUp.run s)
  | .abandoning cause, s => (.error cause, s.closeStorage.2)
  | .awaitingClaims, s =>
    if job.command = .close then
      (LogStream.both s.windDown.1 s.windDown.2.closeStorage.1, s.windDown.2.closeStorage.2)
    else s.settleClaims
  | .closingStorage woundDown, s =>
    (LogStream.both woundDown s.closeStorage.1, s.closeStorage.2)
  | .handled outcome, s | .released outcome, s => (outcome, s)

theorem perform_openUp {s : LogStream} (hs : s.state ≠ .opened) :
    (LogStream.perform .openUp).run s = opened ((do LogStream.openStorage; LogStream.startUp :
      Attempt LogStream Unit).run { s with state := .opening }) := by
  show LogStream.openStream.run s = _
  unfold Attempt.run LogStream.openStream
  rw [if_neg hs]
  rfl

theorem perform_close {s : LogStream} (hs : s.state ≠ .closed) {job : Job}
    (hc : job.command = .close) :
    (LogStream.perform .close).run s = remainder job .awaitingClaims
      ({ s with state := .closing }.withBuffer WriteBuffer.shut) := by
  rw [remainder, if_pos hc]
  show s.closeStream = _
  unfold LogStream.closeStream
  rw [if_neg hs]

theorem run_openStorage_of_open {s : LogStream} (h : s.storage.isOpen = true) :
    LogStream.openStorage.run s = (.ok (), s) := by
  unfold Attempt.run LogStream.openStorage
  rw [if_pos h]

/-- A step of the command at hand changes nothing in what comes of it. -/
theorem Worked.remainder_eq {job : Job} {s t : LogStream} {before after : Progress}
    (h : Worked job s before after t) : remainder job after t = remainder job before s := by
  cases h with
  | openAlready hc hs =>
    rw [remainder, remainder, hc]
    show _ = LogStream.openStream.run s
    unfold Attempt.run LogStream.openStream
    rw [if_pos hs]
  | entersStorage hc hs ho => rw [remainder, remainder, hc, perform_openUp hs]
  | findsStorage hc hs ho =>
    have hrun := run_openStorage_of_open (s := { s with state := .opening }) ho
    rw [remainder, remainder, hc, perform_openUp hs, Attempt.run_bind_ok hrun]
  | closedAlready hc hs =>
    rw [remainder, remainder, hc]
    show _ = s.closeStream
    unfold LogStream.closeStream
    rw [if_pos hs]
  | shuts hc hs => rw [remainder.eq_1, hc, perform_close hs hc]
  | shutsAppender hc =>
    rw [remainder, remainder, hc, if_neg (by simp)]
    rfl
  | atOnce hc h => exact h.symm
  | storageOpened h => rw [remainder, remainder, Attempt.run_bind_ok h]
  | storageFailed h => rw [remainder, remainder, Attempt.run_bind_error h, opened]
  | started h => rw [remainder, remainder, h, opened]
  | startFailed h => rw [remainder, remainder, h, opened]
  | abandoned cause => rw [remainder, remainder]
  | woundDown hc => rw [remainder, remainder, if_pos hc]
  | settled hc => rw [remainder, remainder, if_neg hc]
  | storageClosed outcome => rw [remainder, remainder]

end Lifecycle

end PartitionLog
