import PartitionLog.Proofs.Components
import PartitionLog.Proofs.Refusals
import PartitionLog.Proofs.Switching

/-!
# Writes while the appender is stopped

Stopping the appender shuts the buffer, and nothing but a start of the appender opens it again: an
open stream whose appender was stopped is at a `Standstill`. A start opens the buffer first, though,
and may fail after that, just if there is a stale block (`startAppender_fails`). So the writes of a
stream at a standstill are refused until somebody tries to start the appender, whether or not that
succeeds (`writes_at_standstill`).
-/

namespace PartitionLog

/-! ## Stopping the appender -/

/-- How a stream stands when a command to stop its appender has come this far. -/
def LogStream.StopsAt (s : LogStream) : Progress → Prop
  | .awaitingClaims => s.buffer.closed = true
  | .handled _ => s.buffer.closed = true ∧ s.appender.isRunning = false
  | _ => True

namespace Lifecycle

variable {l next : Lifecycle}

theorem Fitting.undisturbed (h : l.Fitting) (hc : next.current = l.current)
    (hs : l.stream.Undisturbed next.stream) : next.Fitting := by
  intro job progress hcurrent
  rw [hs.state]
  exact h job progress (hc.symm.trans hcurrent)

theorem Worked.stopsAt {job : Job} {s t : LogStream} {before after : Progress}
    (h : Worked job s before after t) (hf : Fits s.state job.command before)
    (hstop : job.command = .stopAppender) (hs : s.StopsAt before) : t.StopsAt after := by
  cases h with
  | openAlready hc => simp [hstop] at hc
  | entersStorage => trivial
  | findsStorage => trivial
  | closedAlready hc => simp [hstop] at hc
  | shuts hc => simp [hstop] at hc
  | shutsAppender => rfl
  | atOnce hc => simp [hstop] at hc
  | storageOpened => trivial
  | storageFailed => trivial
  | started =>
    have hopen := hf.1
    simp [hstop] at hopen
  | startFailed => trivial
  | abandoned =>
    have hopen := hf.1
    simp [hstop] at hopen
  | woundDown => trivial
  | settled => exact ⟨(Appender.atWork_keepsTerms.stop s.appender).closed.trans hs, rfl⟩
  | storageClosed =>
    have hclose : job.command = .close := hf
    simp [hstop] at hclose

/-- As far as the command at hand has come, it fits the state of the stream, and if it stops the
appender, the stream stands as it says. -/
structure Stopping (l : Lifecycle) : Prop where
  fits : l.Fitting
  stops : ∀ job progress, l.current = some (job, progress) → job.command = .stopAppender →
    l.stream.StopsAt progress

theorem Stopping.step (h : l.Stopping) (hstep : l.Step next) : next.Stopping := by
  refine ⟨h.fits.step hstep, fun job progress hc hstop => ?_⟩
  cases hstep with
  | take hc' hq =>
    simp only [Option.some.injEq, Prod.mk.injEq] at hc
    obtain ⟨-, rfl⟩ := hc
    trivial
  | work hc' hw =>
    simp only [reach, Option.some.injEq, Prod.mk.injEq] at hc
    obtain ⟨rfl, rfl⟩ := hc
    exact hw.stopsAt (h.fits _ _ hc') hstop (h.stops _ _ hc' hstop)
  | release hc' ho =>
    simp only [Option.some.injEq, Prod.mk.injEq] at hc
    obtain ⟨rfl, rfl⟩ := hc
    trivial
  | finish hc' => simp [finish] at hc

theorem Stopping.undisturbed (h : l.Stopping) (hc : next.current = l.current)
    (hs : l.stream.Undisturbed next.stream) : next.Stopping := by
  refine ⟨h.fits.undisturbed hc hs, fun job progress hcurrent hstop => ?_⟩
  have hstops := h.stops job progress (hc.symm.trans hcurrent) hstop
  cases progress with
  | awaitingClaims => exact hs.closed.trans hstops
  | handled outcome => exact ⟨hs.closed.trans hstops.1, (hs.rests hstops.2).1⟩
  | _ => trivial

end Lifecycle

namespace Run

variable {u : Run}

theorem after_stopping (h : u.lifecycle.Stopping) (actions : List Action) :
    (u.after actions).lifecycle.Stopping := by
  induction actions generalizing u with
  | nil => exact h
  | cons action rest ih =>
    refine ih (u := u.step action) ?_
    rcases u.step_cases action with ⟨hstep, -⟩ | ⟨hcurrent, hs, -⟩
    · exact h.step hstep
    · exact h.undisturbed hcurrent hs

theorem start_stopping (s : LogStream) (initial : List Bytes) :
    (start s initial).lifecycle.Stopping := by
  constructor
  · intro job progress hcurrent
    simp [start] at hcurrent
  · intro job progress hcurrent
    simp [start] at hcurrent

end Run

/-! ## At a standstill -/

/-- The command neither opens nor closes the stream that it finds, nor starts its appender. -/
def Command.LeavesStopped (command : Command) (s : LogStream) : Prop :=
  command.switches = false ∧
    (command = .startAppender → (LogStream.startAppender.run s).1.isOk = false)

instance (command : Command) (s : LogStream) : Decidable (command.LeavesStopped s) :=
  inferInstanceAs (Decidable (_ ∧ (_ → _)))

/-- Whether a start was tried after the last stop, once these commands were begun too. -/
def retried (tried : Bool) (begun : List (Command × LogStream)) : Bool :=
  begun.foldl (fun tried d => match d.1 with
    | .startAppender => true
    | .stopAppender => false
    | _ => tried) tried

theorem retried_of_no_start {begun : List (Command × LogStream)}
    (h : ∀ d ∈ begun, d.1 ≠ .startAppender) : retried false begun = false := by
  induction begun with
  | nil => rfl
  | cons d rest ih =>
    obtain ⟨command, s⟩ := d
    have hrest := ih fun other hother => h other (List.mem_cons_of_mem _ hother)
    cases command with
    | startAppender => exact absurd rfl (h _ List.mem_cons_self)
    | _ => exact hrest

namespace LogStream

variable {s t : LogStream} {tried again : Bool}

/-- Open, with the appender stopped. Whether the buffer is shut is up to whether a start was tried. -/
structure Still (s : LogStream) (tried : Bool) : Prop where
  opened : s.state = .opened
  rests : s.appender.isRunning = false
  gate : s.buffer.closed = !tried

/-- `t` is as still as `s`; it has a stale block if that has one, and no slots more, if `s` was shut. -/
structure StaysStill (s : LogStream) (tried again : Bool) (t : LogStream) : Prop where
  still : t.Still again
  stale : t.appender.staleBlock = s.appender.staleBlock
  slots : tried = false → s.buffer.SameSlots t.buffer

theorem Undisturbed.staysStill (h : s.Undisturbed t) (hs : s.Still tried) :
    s.StaysStill tried tried t where
  still := ⟨h.state.trans hs.opened, (h.rests hs.rests).1, h.closed.trans hs.gate⟩
  stale := (h.rests hs.rests).2
  slots hshut := h.slots hs.rests (by rw [hs.gate, hshut]; rfl)

theorem withStorage_undisturbed (s : LogStream) (u : Storage) : s.Undisturbed (s.withStorage u) :=
  ⟨rfl, rfl, fun h => ⟨h, rfl⟩, fun _ _ => .refl _⟩

theorem truncate_undisturbed {position : Int} {r : Except LogError Unit}
    (h : (truncate position).run s = (r, t)) : s.Undisturbed t := by
  cases truncate_cases h with
  | refused => exact .refl s
  | missed hallow hfind =>
    obtain ⟨answer, rs, -, rfl, -⟩ := addressOf_cases hfind
    exact withStorage_undisturbed ..
  | uncut hallow hfind hcut =>
    obtain ⟨answer, rs, -, rfl, -⟩ := addressOf_cases hfind
    exact withStorage_undisturbed ..
  | cut hallow hfind hcut =>
    obtain ⟨answer, rs, -, rfl, -⟩ := addressOf_cases hfind
    exact ⟨rfl, rfl, fun h => ⟨h, rfl⟩, fun _ _ => .refl _⟩

theorem settleClaims_undisturbed (s : LogStream) : s.Undisturbed s.settleClaims.2 where
  state := rfl
  closed := (Appender.atWork_keepsTerms.stop s.appender).closed
  rests h := ⟨rfl, (Appender.stop_of_rests h).2⟩
  slots h _ := by
    show s.buffer.SameSlots s.appender.stop.buffer
    rw [(Appender.stop_of_rests h).1]
    exact .refl _

/-- A start opens the buffer of an open stream, even if it fails. -/
theorem startAppender_fails (hopened : s.state = .opened) {e : LogError}
    (h : startAppender.run s = (.error e, t)) :
    s.StaysStill tried true t ∧ s.appender.staleBlock ≠ none := by
  unfold Attempt.run startAppender at h
  rw [ensureOpen_of_opened hopened] at h
  obtain ⟨b, hstart, rfl⟩ := onAppender_cases h
  obtain ⟨hrests, hbuffer, hstale, hnone⟩ := Appender.start_fails hstart
  refine ⟨⟨⟨hopened, hrests, ?_⟩, hstale, fun _ => ?_⟩, hnone⟩
  · show b.buffer.closed = false
    rw [hbuffer]
    rfl
  · show s.buffer.SameSlots b.buffer
    rw [hbuffer]
    exact ⟨rfl, rfl⟩

end LogStream

namespace Lifecycle

variable {l next : Lifecycle} {tried : Bool}

theorem Worked.staysStill {job : Job} {s t : LogStream} {before after : Progress}
    (h : Worked job s before after t) (hf : Fits s.state job.command before) (hs : s.Still tried)
    (haside : before = .taken ∨ job.command.switches = false)
    (hbegins : ∀ d ∈ before.begins job s, d.1.LeavesStopped d.2) :
    job.command.switches = false ∧
      s.StaysStill tried (retried tried (before.begins job s)) t := by
  have hstays : job.command.switches = false := by
    rcases haside with rfl | hstays
    · exact (hbegins _ List.mem_cons_self).1
    · exact hstays
  have hopen : job.command ≠ .openUp := by
    intro hc
    simp [hc, Command.switches] at hstays
  have hclose : job.command ≠ .close := by
    intro hc
    simp [hc, Command.switches] at hstays
  refine ⟨hstays, ?_⟩
  -- what can be under way is a stop, a start that fails, or a truncation
  cases h with
  | openAlready hc => exact absurd hc hopen
  | entersStorage hc => exact absurd hc hopen
  | findsStorage hc => exact absurd hc hopen
  | closedAlready hc => exact absurd hc hclose
  | shuts hc => exact absurd hc hclose
  | shutsAppender hc =>
    have hstop : retried tried (Progress.taken.begins job s) = false := by
      simp [Progress.begins, retried, hc]
    rw [hstop]
    exact ⟨⟨hs.opened, hs.rests, rfl⟩, rfl, fun _ => ⟨rfl, rfl⟩⟩
  | @atOnce hc outcome t h =>
    rcases hc with hc | ⟨position, hc⟩
    · have hstart : retried tried (Progress.taken.begins job s) = true := by
        simp [Progress.begins, retried, hc]
      have hfails := (hbegins _ List.mem_cons_self).2 hc
      rw [hc] at h
      rw [hstart]
      rw [show LogStream.startAppender.run s = (outcome, t) from h] at hfails
      cases outcome with
      | ok => simp [Except.isOk, Except.toBool] at hfails
      | error e => exact (LogStream.startAppender_fails hs.opened h).1
    · have hcut : retried tried (Progress.taken.begins job s) = tried := by
        simp [Progress.begins, retried, hc]
      rw [hc] at h
      rw [hcut]
      exact (LogStream.truncate_undisturbed h).staysStill hs
  | storageOpened => exact absurd hf.1 hopen
  | storageFailed => exact absurd hf.1 hopen
  | started => exact absurd hf.1 hopen
  | startFailed => exact absurd hf.1 hopen
  | abandoned => exact absurd hf.1 hopen
  | woundDown hc => exact absurd hc hclose
  | settled => exact s.settleClaims_undisturbed.staysStill hs
  | storageClosed => exact absurd hf hclose

/-- The stream is still, and nothing that is under way opens or closes it. -/
structure Standstill (l : Lifecycle) (tried : Bool) : Prop where
  fits : l.Fitting
  still : l.stream.Still tried
  aside : ∀ job progress, l.current = some (job, progress) →
    progress = .taken ∨ job.command.switches = false

/-- The appender was just stopped, without a failure. -/
def hasStopped (l : Lifecycle) : Bool :=
  match l.current with
  | some (⟨_, .stopAppender⟩, .handled (.ok ())) => true
  | _ => false

theorem Stopping.standstill (h : l.Stopping) (hstopped : l.hasStopped = true)
    (hopened : l.stream.state = .opened) : l.Standstill false := by
  unfold hasStopped at hstopped
  split at hstopped
  · next ticket hc =>
    obtain ⟨hshut, hrests⟩ := h.stops _ _ hc rfl
    refine ⟨h.fits, ⟨hopened, hrests, hshut⟩, fun job progress hcurrent => ?_⟩
    rw [hc] at hcurrent
    simp only [Option.some.injEq, Prod.mk.injEq] at hcurrent
    exact .inr (hcurrent.1 ▸ rfl)
  · simp at hstopped

theorem Standstill.step (h : l.Standstill tried)
    (hbegins : ∀ d ∈ l.begins, d.1.LeavesStopped d.2) (hstep : l.Step next) :
    next.Standstill (retried tried l.begins) ∧
      l.stream.StaysStill tried (retried tried l.begins) next.stream := by
  have hfits := h.fits.step hstep
  have hsame := (LogStream.Undisturbed.refl l.stream).staysStill h.still
  cases hstep with
  | @take job rest hc hq =>
    have hnone : l.begins = [] := by simp [begins, hc]
    rw [hnone]
    refine ⟨⟨hfits, h.still, fun job progress hcurrent => ?_⟩, hsame⟩
    simp only [Option.some.injEq, Prod.mk.injEq] at hcurrent
    exact .inl hcurrent.2.symm
  | @work job before after s hc hw =>
    have hbegun : l.begins = before.begins job l.stream := by simp [begins, hc]
    rw [hbegun] at hbegins ⊢
    obtain ⟨hstays, hstill⟩ := hw.staysStill (h.fits _ _ hc) h.still (h.aside _ _ hc) hbegins
    refine ⟨⟨hfits, hstill.still, fun job progress hcurrent => ?_⟩, hstill⟩
    simp only [reach, Option.some.injEq, Prod.mk.injEq] at hcurrent
    exact .inr (hcurrent.1 ▸ hstays)
  | @release job outcome hc ho =>
    have hstays := h.aside _ _ hc
    simp [ho, Command.switches] at hstays
  | @finish job outcome hc =>
    have hnone : l.begins = [] := by
      rcases hc with ⟨hc, -⟩ | hc
      · simp [begins, hc, Progress.begins]
      · simp [begins, hc, Progress.begins]
    rw [hnone]
    refine ⟨⟨hfits, h.still, fun job progress hcurrent => ?_⟩, hsame⟩
    simp [finish] at hcurrent

theorem Standstill.undisturbed (h : l.Standstill tried) (hc : next.current = l.current)
    (hs : l.stream.Undisturbed next.stream) :
    next.Standstill tried ∧ l.stream.StaysStill tried tried next.stream := by
  have hstill := hs.staysStill h.still
  refine ⟨⟨h.fits.undisturbed hc hs, hstill.still, fun job progress hcurrent => ?_⟩, hstill⟩
  exact h.aside job progress (hc.symm.trans hcurrent)

/-- A start of an appender without a stale block cannot fail in an open stream. -/
theorem Standstill.no_start (h : l.Standstill tried) (hnone : l.stream.appender.staleBlock = none)
    (hbegins : ∀ d ∈ l.begins, d.1.LeavesStopped d.2) : ∀ d ∈ l.begins, d.1 ≠ .startAppender := by
  intro d hd hstart
  have hfails := (hbegins d hd).2 hstart
  have hstream : d.2 = l.stream := by
    unfold begins at hd
    split at hd
    · simp at hd
    · next job progress hc =>
      cases progress with
      | taken =>
        obtain rfl := List.mem_singleton.1 hd
        rfl
      | _ => simp [Progress.begins] at hd
  rw [hstream] at hfails
  generalize hrun : LogStream.startAppender.run l.stream = result at hfails
  obtain ⟨outcome, t⟩ := result
  cases outcome with
  | ok => simp [Except.isOk, Except.toBool] at hfails
  | error e =>
    have hstale : l.stream.StaysStill tried true t ∧ l.stream.appender.staleBlock ≠ none :=
      LogStream.startAppender_fails h.still.opened hrun
    exact hstale.2 hnone

end Lifecycle

namespace Run

variable {u v : Run} {tried : Bool} {s : LogStream} {initial : List Bytes}
  {before following : List Action}

/-- The commands that are begun, each with the stream as it finds it. -/
def undertaken (u : Run) : List Action → List (Command × LogStream)
  | [] => []
  | action :: rest => u.undertakes action ++ (u.step action).undertaken rest

theorem step_standstill (h : u.lifecycle.Standstill tried) {action : Action}
    (hleft : ∀ d ∈ u.undertakes action, d.1.LeavesStopped d.2) :
    (u.step action).lifecycle.Standstill (retried tried (u.undertakes action)) ∧
      u.stream.StaysStill tried (retried tried (u.undertakes action)) (u.step action).stream ∧
      (u.appender.staleBlock = none → ∀ d ∈ u.undertakes action, d.1 ≠ .startAppender) := by
  rcases u.step_cases action with ⟨hstep, hbegins⟩ | ⟨hcurrent, hs, hnone⟩
  · rw [hbegins] at hleft ⊢
    obtain ⟨hstand, hstill⟩ := h.step hleft hstep
    exact ⟨hstand, hstill, fun hstale => h.no_start hstale hleft⟩
  · rw [hnone]
    obtain ⟨hstand, hstill⟩ := h.undisturbed hcurrent hs
    exact ⟨hstand, hstill, by simp⟩

theorem after_standstill (h : u.lifecycle.Standstill tried)
    (hleft : ∀ d ∈ u.undertaken following, d.1.LeavesStopped d.2) :
    (u.after following).lifecycle.Standstill (retried tried (u.undertaken following)) ∧
      (tried = false → (∀ d ∈ u.undertaken following, d.1 ≠ .startAppender) →
        u.buffer.SameSlots (u.after following).buffer) ∧
      (u.appender.staleBlock = none → ∀ d ∈ u.undertaken following, d.1 ≠ .startAppender) := by
  -- the slots are compared only up to the first start: that may open the buffer for what follows
  induction following generalizing u tried with
  | nil => exact ⟨h, fun _ _ => .refl _, by simp [undertaken]⟩
  | cons action rest ih =>
    obtain ⟨hfirst, hrest⟩ := List.forall_mem_append.1 hleft
    obtain ⟨hstand, hstill, hunstarted⟩ := step_standstill h hfirst
    obtain ⟨hafter, hslots, hnone⟩ := ih hstand hrest
    refine ⟨?_, fun hshut hno => ?_, fun hstale => ?_⟩
    · rw [undertaken, retried, List.foldl_append]
      exact hafter
    · obtain ⟨hnofirst, hnorest⟩ := List.forall_mem_append.1 hno
      subst hshut
      exact (hstill.slots rfl).trans (hslots (retried_of_no_start hnofirst) hnorest)
    · exact List.forall_mem_append.2 ⟨hunstarted hstale, hnone (hstill.stale.trans hstale)⟩

/-- What has become of the writes to a stream since its appender was stopped. -/
structure StandsStill (u v : Run) (begun : List (Command × LogStream)) : Prop where
  opened : v.stream.state = .opened
  refuses : retried false begun = false → v.stream.Refuses
  gains : (∀ d ∈ begun, d.1 ≠ .startAppender) → u.buffer.SameSlots v.buffer
  /-- A start that failed has opened the buffer. -/
  takes : retried false begun = true → v.stream.Takes
  /-- Without a stale block no start fails. -/
  blames : u.appender.staleBlock = none → ∀ d ∈ begun, d.1 ≠ .startAppender

/-- From when its appender was stopped, and until it is started or the stream is closed or opened, an
open stream refuses every write, but not after an attempt to start the appender. -/
theorem writes_at_standstill (hstopped : ((start s initial).after before).lifecycle.hasStopped = true)
    (hopened : ((start s initial).after before).stream.state = .opened)
    (hleft : ∀ d ∈ ((start s initial).after before).undertaken following, d.1.LeavesStopped d.2) :
    ((start s initial).after before).StandsStill
      (((start s initial).after before).after following)
      (((start s initial).after before).undertaken following) := by
  have hstopping := after_stopping (start_stopping s initial) before
  generalize (start s initial).after before = u at *
  have hstand := hstopping.standstill hstopped hopened
  obtain ⟨hafter, hslots, hnone⟩ := after_standstill hstand hleft
  have hstill : (u.after following).stream.Still _ := hafter.still
  exact {
    opened := hstill.opened
    refuses := fun hno => LogStream.refuses_of_shut hstill.opened (by rw [hstill.gate, hno]; rfl)
    gains := hslots rfl
    takes := fun hyes => LogStream.takes_of_open hstill.opened (by rw [hstill.gate, hyes]; rfl)
    blames := hnone }

/-- The truncation of the stale block fails twice. -/
def clogged : LogStream :=
  (inMemory [[1, 2]]).withStorage { (inMemory [[1, 2]]).storage with
    faults := (inMemory [[1, 2]]).storage.faults.set .truncate (.failFirst 2) }

/-- The appender halts with a stale block, and is stopped. -/
def stuck : List Action := halted ++ .request .stopAppender :: List.replicate 3 (.advance true)

/-- That is finished, and the appender is to be started again. -/
def unstuck : List Action := .advance true :: carryOut .startAppender

theorem stopped_stuck :
    ((start clogged [[1, 2]]).after stuck).lifecycle.hasStopped = true ∧
      ((start clogged [[1, 2]]).after stuck).stream.state = .opened := by
  decide +kernel

theorem left_unstuck : ∀ d ∈ ((start clogged [[1, 2]]).after stuck).undertaken unstuck,
    d.1.LeavesStopped d.2 := by
  decide +kernel

theorem writes_at_standstill_clogged :
    ((start clogged [[1, 2]]).after stuck).lifecycle.hasStopped = true ∧
      ((start clogged [[1, 2]]).after stuck).stream.state = .opened ∧
      retried false (((start clogged [[1, 2]]).after stuck).undertaken unstuck) = true ∧
      ((start clogged [[1, 2]]).after stuck).StandsStill
        (((start clogged [[1, 2]]).after stuck).after unstuck)
        (((start clogged [[1, 2]]).after stuck).undertaken unstuck) :=
  ⟨stopped_stuck.1, stopped_stuck.2, by decide +kernel,
    writes_at_standstill stopped_stuck.1 stopped_stuck.2 left_unstuck⟩

/-- The appender was stopped and not started again, and yet a record gets into the buffer. -/
theorem write_after_failed_start :
    ((start clogged [[1, 2]]).after stuck).lifecycle.hasStopped = true ∧
      ((start clogged [[1, 2]]).after stuck).stream.state = .opened ∧
      (∀ d ∈ ((start clogged [[1, 2]]).after stuck).undertaken unstuck, d.1.LeavesStopped d.2) ∧
      ((LogStream.tryWrite [9]).run
        (((start clogged [[1, 2]]).after stuck).after unstuck).stream).1.isOk = true ∧
      ((LogStream.tryWrite [9]).run
        (((start clogged [[1, 2]]).after stuck).after unstuck).stream).2.buffer.slots.length
          = ((start clogged [[1, 2]]).after stuck).buffer.slots.length + 1 := by
  refine ⟨stopped_stuck.1, stopped_stuck.2, left_unstuck, ?_⟩
  decide +kernel

end Run

end PartitionLog
