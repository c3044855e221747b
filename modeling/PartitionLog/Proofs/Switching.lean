import PartitionLog.Proofs.CommandOrder

/-!
# Who opens and closes a stream

Only the commands to open and to close change whether a stream is open: nothing else that is done on
a job does (`Worked.stays`). So the state of a stream whose lifecycle is `Resting` stays while others
use it, and while one such command is under way (`Bound`) its ticket tells what the state is in the
end.
-/

namespace PartitionLog

/-- The command opens the stream or closes it. -/
def Command.switches : Command → Bool
  | .openUp | .close => true
  | _ => false

/-- The state that a command leaves when it is carried out without a failure. -/
def Command.Achieved : Command → StreamState → Prop
  | .openUp, state => state = .opened
  | .close, state => state = .closed
  | _, _ => True

theorem Command.achieved_of_not_switches {command : Command} (h : command.switches = false)
    (state : StreamState) : command.Achieved state := by
  cases command with
  | openUp => simp [switches] at h
  | close => simp [switches] at h
  | _ => trivial

/-! ## What leaves the state of a stream alone -/

namespace LogStream

def KeepsState {α : Type} (x : Attempt LogStream α) : Prop := ∀ s, (x.run s).2.state = s.state

variable {α β : Type}

theorem KeepsState.bind {x : Attempt LogStream α} {f : α → Attempt LogStream β}
    (hx : KeepsState x) (hf : ∀ a, KeepsState (f a)) : KeepsState (x >>= f) := by
  intro s
  have hfirst := hx s
  rw [Attempt.run_bind]
  generalize x.run s = result at hfirst ⊢
  obtain ⟨outcome, t⟩ := result
  cases outcome with
  | ok a => exact (hf a t).trans hfirst
  | error e => exact hfirst

theorem keepsState_pure (a : α) : KeepsState (Pure.pure a) := fun _ => rfl

theorem keepsState_get : KeepsState .get := fun _ => rfl

theorem keepsState_ofExcept (outcome : Except LogError α) : KeepsState (.ofExcept outcome) := by
  intro s
  cases outcome <;> rfl

theorem keepsState_onAppender (x : Attempt Appender α) : KeepsState (onAppender x) := fun _ => rfl

theorem keepsState_openStorage : KeepsState openStorage := by
  intro s
  unfold Attempt.run openStorage
  split
  · rfl
  · exact keepsState_onAppender _ s

theorem keepsState_startUp : KeepsState startUp := by
  refine (keepsState_onAppender _).bind fun _ => keepsState_get.bind fun _ =>
    (keepsState_onAppender _).bind fun _ => (keepsState_onAppender _).bind fun _ =>
    KeepsState.bind (fun _ => rfl) fun _ => keepsState_get.bind fun s => ?_
  split
  · exact keepsState_onAppender _
  · exact keepsState_pure _

theorem keepsState_startAppender : KeepsState startAppender := by
  intro s
  unfold Attempt.run startAppender
  split
  · rfl
  · exact keepsState_onAppender _ _

theorem keepsState_addressOf (position : Int) : KeepsState (addressOf position) := by
  intro s
  unfold Attempt.run addressOf
  split <;> rfl

theorem keepsState_truncate (position : Int) : KeepsState (truncate position) :=
  keepsState_get.bind fun _ => (keepsState_ofExcept _).bind fun _ =>
    (keepsState_addressOf position).bind fun _ => (keepsState_onAppender _).bind fun _ =>
    KeepsState.bind (fun _ => rfl) fun _ => keepsState_onAppender _

end LogStream

namespace Lifecycle

/-! ## What is done on a job -/

/-- How far a command can have come while the stream has this state. -/
def Fits (state : StreamState) (command : Command) : Progress → Prop
  | .taken => True
  | .openingStorage | .startingUp | .abandoning _ => command = .openUp ∧ state ≠ .opened
  | .awaitingClaims => command = .close ∨ command = .stopAppender
  | .closingStorage _ => command = .close
  | .handled outcome | .released outcome => outcome = .ok () → command.Achieved state

variable {l next : Lifecycle} {t : Nat} {command : Command}

theorem Worked.fits {job : Job} {s after : LogStream} {before progress : Progress}
    (h : Worked job s before progress after) (hf : Fits s.state job.command before) :
    Fits after.state job.command progress := by
  cases h with
  | openAlready hc hs =>
    intro _
    rw [hc]
    exact hs
  | entersStorage hc hs ho => exact ⟨hc, by simp⟩
  | findsStorage hc hs ho => exact ⟨hc, by simp⟩
  | closedAlready hc hs =>
    intro _
    rw [hc]
    exact hs
  | shuts hc hs => exact .inl hc
  | shutsAppender hc => exact .inr hc
  | atOnce hc h =>
    intro _
    apply Command.achieved_of_not_switches
    rcases hc with hc | ⟨position, hc⟩ <;> simp [hc, Command.switches]
  | storageOpened h =>
    have hstate := LogStream.keepsState_openStorage s
    rw [h] at hstate
    exact ⟨hf.1, hstate ▸ hf.2⟩
  | @storageFailed e t h =>
    have hstate : t.state = s.state := by simpa [h] using LogStream.keepsState_openStorage s
    exact ⟨hf.1, fun ho => hf.2 (hstate.symm.trans ho)⟩
  | started h =>
    intro _
    rw [hf.1]
    rfl
  | @startFailed e t h =>
    have hstate : t.state = s.state := by simpa [h] using LogStream.keepsState_startUp s
    exact ⟨hf.1, fun ho => hf.2 (hstate.symm.trans ho)⟩
  | abandoned cause => exact fun hok => by cases hok
  | woundDown hc => exact hc
  | settled hc =>
    intro _
    apply Command.achieved_of_not_switches
    rw [hf.resolve_left hc]
    rfl
  | storageClosed outcome =>
    intro _
    rw [hf]
    rfl

/-- Only opening and closing change the state, and opening does not if the stream is open. -/
theorem Worked.stays {job : Job} {s after : LogStream} {before progress : Progress}
    (h : Worked job s before progress after) (hf : Fits s.state job.command before)
    (hc : job.command.switches = false ∨ job.command = .openUp ∧ s.state = .opened) :
    after.state = s.state := by
  have hopening : ¬ (job.command = .openUp ∧ s.state ≠ .opened) := by
    rintro ⟨hopen, hstate⟩
    rcases hc with hc | hc
    · simp [hopen, Command.switches] at hc
    · exact hstate hc.2
  have hclosing : job.command ≠ .close := by
    rintro hclose
    rcases hc with hc | hc
    · simp [hclose, Command.switches] at hc
    · simp [hclose] at hc
  cases h with
  | openAlready => rfl
  | entersStorage hopen hs => exact absurd ⟨hopen, hs⟩ hopening
  | findsStorage hopen hs => exact absurd ⟨hopen, hs⟩ hopening
  | closedAlready => rfl
  | shuts hclose => exact absurd hclose hclosing
  | shutsAppender => rfl
  | atOnce hcommand h =>
    rcases hcommand with hcommand | ⟨position, hcommand⟩
    · have hstate := LogStream.keepsState_startAppender s
      rw [hcommand] at h
      rw [show LogStream.startAppender.run s = _ from h] at hstate
      exact hstate
    · have hstate := LogStream.keepsState_truncate position s
      rw [hcommand] at h
      rw [show (LogStream.truncate position).run s = _ from h] at hstate
      exact hstate
  | storageOpened => exact absurd hf hopening
  | storageFailed => exact absurd hf hopening
  | started => exact absurd hf hopening
  | startFailed => exact absurd hf hopening
  | abandoned => exact absurd hf hopening
  | woundDown hclose => exact absurd hclose hclosing
  | settled => rfl
  | storageClosed => exact absurd hf hclosing

/-- The command at hand can have come as far as it has. -/
def Fitting (l : Lifecycle) : Prop :=
  ∀ job progress, l.current = some (job, progress) → Fits l.stream.state job.command progress

theorem Fitting.step (h : l.Fitting) (hstep : l.Step next) : next.Fitting := by
  intro job progress hc
  cases hstep with
  | take hc' hq =>
    simp only [Option.some.injEq, Prod.mk.injEq] at hc
    obtain ⟨-, rfl⟩ := hc
    trivial
  | work hc' hw =>
    simp only [reach, Option.some.injEq, Prod.mk.injEq] at hc
    obtain ⟨rfl, rfl⟩ := hc
    exact hw.fits (h _ _ hc')
  | release hc' ho =>
    simp only [Option.some.injEq, Prod.mk.injEq] at hc
    obtain ⟨rfl, rfl⟩ := hc
    exact h _ (.handled _) hc'
  | finish hc' => simp [finish] at hc

/-! ## The jobs that open or close -/

/-- The jobs that are not finished and open or close the stream. -/
def switches (l : Lifecycle) : List Job := l.jobs.filter (·.command.switches)

/-- What holds of a lifecycle however it is used. -/
structure Steered (l : Lifecycle) : Prop where
  docket : ∃ d : Docket, d.Filed ∧ d.lifecycle = l
  fits : ∀ job progress, l.current = some (job, progress) →
    Fits l.stream.state job.command progress

/-- No command to open or to close is under way. -/
structure Resting (l : Lifecycle) : Prop extends l.Steered where
  idle : l.switches = []

/-- The one command to open or to close has this ticket; it is under way, or finished with an outcome
that tells the state. -/
structure Bound (t : Nat) (command : Command) (l : Lifecycle) : Prop extends l.Steered where
  under : l.switches = [⟨t, command⟩] ∨
    l.switches = [] ∧ ∃ outcome, (l.ticket t).outcome = some outcome ∧
      (outcome = .ok () → command.Achieved l.stream.state)

theorem steered_start (s : LogStream) : ({ stream := s } : Lifecycle).Steered where
  docket := ⟨Docket.start s, Docket.filed_start s, rfl⟩
  fits := by simp

theorem Steered.step {patient : Bool} (h : l.Steered) (hnext : l.advance patient = some next) :
    next.Steered := by
  obtain ⟨d, hd, rfl⟩ := h.docket
  refine ⟨⟨d.step (.advance patient), hd.advance patient, ?_⟩,
    Fitting.step h.fits (advance_cases hnext)⟩
  unfold Docket.step
  dsimp only
  rw [hnext]
  rfl

/-- Others use the stream. -/
theorem Steered.onStream (h : l.Steered) {f : LogStream → LogStream}
    (hf : (f l.stream).state = l.stream.state) : (l.onStream f).Steered := by
  obtain ⟨d, hd, rfl⟩ := h.docket
  refine ⟨⟨d.step (.use f), hd.use f, rfl⟩, fun job progress hc => ?_⟩
  show Fits (f d.lifecycle.stream).state _ _
  rw [hf]
  exact h.fits job progress hc

theorem Steered.request (h : l.Steered) (command : Command) : (l.request command).2.Steered := by
  obtain ⟨d, hd, rfl⟩ := h.docket
  refine ⟨⟨d.step (.ask command), hd.ask command, rfl⟩, fun job progress hc => ?_⟩
  rw [request_current] at hc
  rw [request_stream]
  exact h.fits job progress hc

/-- The ticket of a job that is not finished has no outcome. -/
theorem Steered.pending (h : l.Steered) {job : Job} (hjob : job ∈ l.jobs) :
    (l.ticket job.ticket).outcome = none := by
  obtain ⟨d, hd, rfl⟩ := h.docket
  exact hd.pending_of_job hjob

theorem Steered.lt (h : l.Steered) {job : Job} (hjob : job ∈ l.jobs) :
    job.ticket < l.tickets.length := by
  obtain ⟨d, hd, rfl⟩ := h.docket
  exact hd.lt_of_job hjob

/-- With no command to open under way, no open is pending. -/
theorem Resting.pendingOpen (h : l.Resting) : l.pendingOpen = none := by
  obtain ⟨d, hd, rfl⟩ := h.docket
  have hidle := h.idle
  cases ht : d.lifecycle.pendingOpen with
  | none => rfl
  | some t =>
    -- an open that is pending has a job that is not finished
    have hmem : (⟨t, .openUp⟩ : Job) ∈ d.lifecycle.unreleased.filter (·.command = .openUp) := by
      rw [hd.opens, ht]
      simp
    have hjob : (⟨t, .openUp⟩ : Job) ∈ d.lifecycle.jobs := by
      have hun := (List.mem_filter.1 hmem).1
      unfold Lifecycle.unreleased at hun
      unfold Lifecycle.jobs
      split at hun
      · next hnone => simpa [hnone] using hun
      · next hcurrent => simp [hcurrent, hun]
      · next hcurrent =>
        rcases List.mem_cons.1 hun with rfl | hun
        · simp [hcurrent]
        · exact List.mem_append_right _ hun
    have hswitch : (⟨t, .openUp⟩ : Job) ∈ d.lifecycle.switches :=
      List.mem_filter.2 ⟨hjob, rfl⟩
    rw [hidle] at hswitch
    cases hswitch

/-! ## The lifecycle advances -/

/-- What a step of the lifecycle does with its jobs, and with the state of the stream. -/
inductive Turned (l : Lifecycle) : Lifecycle → Prop where
  | goesOn {next : Lifecycle} (hjobs : next.jobs = l.jobs) (htickets : next.tickets = l.tickets)
    (hstate : next.stream.state = l.stream.state ∨ ∃ job ∈ l.jobs, job.command.switches = true ∧
      (job.command = .openUp → l.stream.state ≠ .opened)) : Turned l next
  | finishes {job : Job} {outcome : Except LogError Unit}
    (hjobs : l.jobs = job :: (l.finish job outcome).jobs)
    (hachieved : outcome = .ok () → job.command.Achieved l.stream.state) :
    Turned l (l.finish job outcome)

theorem Steered.turned (h : l.Steered) (hstep : l.Step next) : l.Turned next := by
  cases hstep with
  | take hc hq => exact .goesOn (by simp [jobs, hc, hq]) rfl (.inl rfl)
  | @work job before after s hc hw =>
    refine .goesOn (by simp [jobs, hc, reach]) rfl ?_
    by_cases hstays : job.command.switches = false ∨
        job.command = .openUp ∧ l.stream.state = .opened
    · exact .inl (hw.stays (h.fits _ _ hc) hstays)
    · rw [not_or, Bool.not_eq_false, not_and] at hstays
      exact .inr ⟨job, by simp [jobs, hc], hstays⟩
  | release hc ho => exact .goesOn (by simp [jobs, hc]) rfl (.inl rfl)
  | finish hc =>
    rcases hc with ⟨hc, -⟩ | hc
    · exact .finishes (by simp [jobs, hc, finish]) (h.fits _ (.handled _) hc)
    · exact .finishes (by simp [jobs, hc, finish]) (h.fits _ (.released _) hc)

theorem Resting.step {patient : Bool} (h : l.Resting) (hnext : l.advance patient = some next) :
    next.Resting ∧ next.stream.state = l.stream.state := by
  have hsteered := h.toSteered.step hnext
  have hidle := h.idle
  cases h.turned (advance_cases hnext) with
  | goesOn hjobs htickets hstate =>
    refine ⟨⟨hsteered, by rw [switches, hjobs]; exact hidle⟩, hstate.resolve_right ?_⟩
    rintro ⟨job, hjob, hswitch, -⟩
    have hmem : job ∈ l.switches := List.mem_filter.2 ⟨hjob, hswitch⟩
    rw [hidle] at hmem
    cases hmem
  | @finishes job outcome hjobs hachieved =>
    rw [switches, hjobs] at hidle
    refine ⟨⟨hsteered, List.eq_nil_iff_forall_not_mem.2 fun other hother => ?_⟩, rfl⟩
    obtain ⟨hmem, hswitch⟩ := List.mem_filter.1 hother
    exact List.eq_nil_iff_forall_not_mem.1 hidle other
      (List.mem_filter.2 ⟨List.mem_cons_of_mem _ hmem, hswitch⟩)

/-- A command that was carried out is no longer under way, and the state is the one that it leaves. -/
theorem Bound.resting (h : l.Bound t command) {outcome : Except LogError Unit}
    (ht : (l.ticket t).outcome = some outcome) :
    l.Resting ∧ (outcome = .ok () → command.Achieved l.stream.state) := by
  rcases h.under with hunder | ⟨hidle, other, hother, hachieved⟩
  · have hmem : (⟨t, command⟩ : Job) ∈ l.switches := by
      rw [hunder]
      exact List.mem_singleton_self _
    have hpending := h.pending (List.mem_filter.1 hmem).1
    rw [ht] at hpending
    cases hpending
  · rw [ht, Option.some.injEq] at hother
    exact ⟨⟨h.toSteered, hidle⟩, hother ▸ hachieved⟩

theorem Resting.bound (h : l.Resting) {outcome : Except LogError Unit}
    (ht : (l.ticket t).outcome = some outcome)
    (hachieved : outcome = .ok () → command.Achieved l.stream.state) : l.Bound t command :=
  ⟨h.toSteered, .inr ⟨h.idle, outcome, ht, hachieved⟩⟩

/-- The one command that opens or closes is finished with its own outcome, and an open stream is not
opened again. -/
theorem Bound.step {patient : Bool} (h : l.Bound t command)
    (hnext : l.advance patient = some next) : next.Bound t command ∧
      (command = .openUp → l.stream.state = .opened → next.stream.state = .opened) := by
  have hsteered := h.toSteered.step hnext
  have hstep := advance_cases hnext
  rcases h.under with hunder | ⟨hidle, outcome, ht, hachieved⟩
  · cases h.turned hstep with
    | goesOn hjobs htickets hstate =>
      refine ⟨⟨hsteered, .inl (by rw [switches, hjobs]; exact hunder)⟩, fun hopen hs => ?_⟩
      rcases hstate with hstate | ⟨job, hjob, hswitch, hnot⟩
      · rw [hstate, hs]
      · have hmem : job ∈ l.switches := List.mem_filter.2 ⟨hjob, hswitch⟩
        rw [hunder, List.mem_singleton] at hmem
        subst hmem
        exact absurd hs (hnot hopen)
    | @finishes job outcome hjobs hachieved =>
      refine ⟨⟨hsteered, ?_⟩, fun _ hs => hs⟩
      rw [switches, hjobs] at hunder
      by_cases hswitch : job.command.switches = true
      · rw [List.filter_cons_of_pos (by exact hswitch), List.cons.injEq] at hunder
        obtain ⟨rfl, hrest⟩ := hunder
        have hjob : (⟨t, command⟩ : Job) ∈ l.jobs := by simp [hjobs]
        have hself := ticket_finish_self (h.lt hjob) (h.pending hjob) outcome
        exact .inr ⟨hrest, outcome, congrArg Completion.outcome hself, hachieved⟩
      · rw [List.filter_cons_of_neg (by exact hswitch)] at hunder
        exact .inl hunder
  · obtain ⟨hrest, hstate⟩ := Resting.step ⟨h.toSteered, hidle⟩ hnext
    refine ⟨hrest.bound (lasting_advance hstep t outcome ht) ?_, fun _ hs => hstate.trans hs⟩
    rw [hstate]
    exact hachieved

theorem Bound.runQueue (patient : Bool) (h : l.Bound t command) :
    (l.runQueue patient).Bound t command ∧ (command = .openUp → l.stream.state = .opened →
      (l.runQueue patient).stream.state = .opened) := by
  fun_induction Lifecycle.runQueue patient l with
  | case1 l hnone => exact ⟨h, fun _ hs => hs⟩
  | case2 l next hnext ih =>
    obtain ⟨hbound, hstate⟩ := h.step hnext
    obtain ⟨hlast, hsame⟩ := ih hbound
    exact ⟨hlast, fun hopen hs => hsame hopen (hstate hopen hs)⟩

/-! ## Requests and other uses -/

theorem Resting.onStream (h : l.Resting) {f : LogStream → LogStream}
    (hf : (f l.stream).state = l.stream.state) : (l.onStream f).Resting :=
  ⟨h.toSteered.onStream hf, h.idle⟩

theorem Bound.onStream (h : l.Bound t command) {f : LogStream → LogStream}
    (hf : (f l.stream).state = l.stream.state) : (l.onStream f).Bound t command := by
  refine ⟨h.toSteered.onStream hf, h.under.imp_right ?_⟩
  rintro ⟨hidle, outcome, ht, hachieved⟩
  refine ⟨hidle, outcome, ht, ?_⟩
  show outcome = .ok () → command.Achieved (f l.stream).state
  rw [hf]
  exact hachieved

theorem jobs_submit (l : Lifecycle) (command : Command) :
    (l.submit command).2.jobs = l.jobs ++ [⟨(l.submit command).1, command⟩] := by
  simp [jobs, submit, issue]

theorem switches_submit (l : Lifecycle) {command : Command} (h : command.switches = false) :
    (l.submit command).2.switches = l.switches := by
  rw [switches, jobs_submit, List.filter_append, switches]
  simp [h]

theorem request_of_not_switches (l : Lifecycle) {command : Command}
    (h : command.switches = false) : l.request command = l.submit command := by
  cases command with
  | openUp => simp [Command.switches] at h
  | close => simp [Command.switches] at h
  | _ => rfl

variable {other : Command}

theorem Resting.request (h : l.Resting) (hc : other.switches = false) :
    (l.request other).2.Resting := by
  refine ⟨h.toSteered.request other, ?_⟩
  rw [request_of_not_switches l hc, switches_submit l hc]
  exact h.idle

theorem Bound.request (h : l.Bound t command) (hc : other.switches = false) :
    (l.request other).2.Bound t command := by
  refine ⟨h.toSteered.request other, ?_⟩
  have hlasts := lasting_request l other t
  rw [request_of_not_switches l hc] at hlasts ⊢
  rw [switches_submit l hc]
  rcases h.under with hunder | ⟨hidle, outcome, ht, hachieved⟩
  · exact .inl hunder
  · exact .inr ⟨hidle, outcome, hlasts outcome ht, hachieved⟩

theorem Resting.submit_switches (h : l.Resting) (hc : command.switches = true) :
    (l.submit command).2.switches = [⟨(l.submit command).1, command⟩] := by
  have hidle := h.idle
  rw [switches] at hidle
  rw [switches, jobs_submit, List.filter_append, hidle]
  simp [hc]

theorem Resting.requestOpen (h : l.Resting) :
    (l.request .openUp).2.Bound (l.request .openUp).1 .openUp ∧
      (l.request .openUp).2.stream = l.stream := by
  have hsteered := h.toSteered.request .openUp
  have hnone := h.pendingOpen
  have hrequest : l.request .openUp = ((l.submit .openUp).1,
      { (l.submit .openUp).2 with pendingOpen := some (l.submit .openUp).1 }) := by
    unfold Lifecycle.request Lifecycle.requestOpen
    dsimp only
    rw [hnone]
  rw [hrequest] at hsteered ⊢
  exact ⟨⟨hsteered, .inl (h.submit_switches rfl)⟩, rfl⟩

theorem Resting.requestClose (h : l.Resting) (hs : l.stream.state ≠ .closed) :
    (l.request .close).2.Bound (l.request .close).1 .close ∧
      (l.request .close).2.stream = l.stream := by
  have hsteered := h.toSteered.request .close
  have hrequest : l.request .close = l.submit .close := by
    unfold Lifecycle.request Lifecycle.requestClose
    dsimp only
    rw [h.pendingOpen, if_neg (by simp), if_neg hs]
  rw [hrequest] at hsteered ⊢
  exact ⟨⟨hsteered, .inl (h.submit_switches rfl)⟩, rfl⟩

end Lifecycle

end PartitionLog
