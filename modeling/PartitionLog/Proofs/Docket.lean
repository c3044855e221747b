import PartitionLog.Proofs.Commands

/-!
# Commands in their order

A `Docket` is a lifecycle in use, with a record of its jobs: which were queued, what each that was
carried out came to, and which tickets were finished with what. Clients ask for commands, the
lifecycle advances, and others use the stream, also while a command is at hand and while the storage
is gated, in any order. A client that wants to close looks whether an open is pending and asks by the
state of the stream after that, with anything in between. `Filed` is what holds of the record and the
lifecycle whatever came (`Filed.after`): each move keeps it.
-/

namespace PartitionLog

/-- What the command comes to, once it was carried out. -/
def Progress.result? : Progress → Option (Except LogError Unit)
  | .handled outcome | .released outcome => some outcome
  | _ => none

namespace Lifecycle

/-- The job that is being carried out. -/
def atWork (l : Lifecycle) : Option Job :=
  l.current.bind fun (job, progress) => if progress.result?.isNone then some job else none

/-- The ticket of the job that was carried out last, until it is finished. -/
def due (l : Lifecycle) : Option (Nat × Except LogError Unit) :=
  l.current.bind fun (job, progress) => progress.result?.map (job.ticket, ·)

/-- The jobs that are queued or running. -/
def unreleased (l : Lifecycle) : List Job :=
  match l.current with
  | none | some (_, .released _) => l.queue
  | some (job, _) => job :: l.queue

/-- The jobs that are not finished. -/
def jobs (l : Lifecycle) : List Job := (l.current.map Prod.fst).toList ++ l.queue

/-- The second half of asking for a close, once no open was found pending. -/
def askClose (l : Lifecycle) : Nat × Lifecycle :=
  if l.stream.state = .closed then l.issue (.finished (.ok ())) else l.submit .close

theorem requestClose_eq (l : Lifecycle) :
    l.requestClose = if l.pendingOpen.isSome then
      l.issue (.finished (.error (.invalidState (.opening l.stream.name)))) else l.askClose := rfl

variable {l : Lifecycle} {n : Nat}

theorem ticket_append_of_lt (h : n < l.tickets.length) (c : Completion Unit) :
    (l.tickets ++ [c]).getD n .pending = l.ticket n := by
  rw [ticket, List.getD_eq_getElem?_getD, List.getElem?_append_left h,
    List.getD_eq_getElem?_getD]

theorem ticket_append_self (c : Completion Unit) :
    (l.tickets ++ [c]).getD l.tickets.length .pending = c := by
  rw [List.getD_eq_getElem?_getD, List.getElem?_concat_length]
  rfl

theorem ticket_finish_of_ne {job : Job} (h : job.ticket ≠ n) (outcome : Except LogError Unit) :
    (l.finish job outcome).ticket n = l.ticket n := by
  simp only [ticket, finish, List.getD_eq_getElem?_getD, List.getElem?_modify, if_neg h]
  simp

theorem ticket_finish_self {job : Job} (hlt : job.ticket < l.tickets.length)
    (hnone : (l.ticket job.ticket).outcome = none) (outcome : Except LogError Unit) :
    (l.finish job outcome).ticket job.ticket = .finished outcome := by
  obtain ⟨c, hc⟩ : ∃ c, l.tickets[job.ticket]? = some c := ⟨_, List.getElem?_eq_getElem hlt⟩
  simp only [ticket, finish, List.getD_eq_getElem?_getD, List.getElem?_modify, hc,
    Option.getD_some] at hnone ⊢
  simp [Completion.finish, hnone]

/-- Work ends with the command carried out, or goes on. -/
theorem Worked.result {job : Job} {s t : LogStream} {before after : Progress}
    (h : Worked job s before after t) :
    before.result? = none ∧ ∀ outcome, after ≠ .released outcome := by
  cases h <;> exact ⟨rfl, by simp⟩

end Lifecycle

/-! ## The record -/

/-- A job that was carried out. -/
structure DocketEntry where
  job : Job
  outcome : Except LogError Unit
  /-- The stream when the job was taken, if nobody else used it until the job was carried out. -/
  basis : Option LogStream

structure Docket where
  lifecycle : Lifecycle
  /-- How many clients found no open pending and have not asked for a close yet. -/
  closers : Nat := 0
  /-- The stream when the job at hand was taken, if nobody else used it since. -/
  basis : Option LogStream := none
  queued : List Job := []
  entries : List DocketEntry := []
  finished : List (Nat × Except LogError Unit) := []

namespace Docket

inductive Move where
  | ask (command : Command)
  /-- A client that wants to close looks whether an open is pending. -/
  | look
  /-- A client that found none asks. -/
  | askClose
  | advance (patient : Bool)
  /-- Somebody else uses the stream. -/
  | use (f : LogStream → LogStream)

/-- A client asked, and what was queued by that. -/
def asked (d : Docket) (next : Lifecycle) : Docket :=
  { d with
    lifecycle := next
    queued := d.queued ++ next.queue.drop d.lifecycle.queue.length }

/-- The lifecycle took a step. -/
def advanced (d : Docket) (next : Lifecycle) : Docket :=
  { d with
    lifecycle := next
    basis := if d.lifecycle.current.isNone then some next.stream else d.basis
    entries := match d.lifecycle.due, next.current with
      | none, some (job, .handled outcome) => d.entries ++ [⟨job, outcome, d.basis⟩]
      | _, _ => d.entries
    finished := if next.current.isNone then d.finished ++ d.lifecycle.due.toList else d.finished }

def step (d : Docket) : Move → Docket
  | .ask command => d.asked (d.lifecycle.request command).2
  | .look =>
    if d.lifecycle.pendingOpen.isSome then d.asked d.lifecycle.requestClose.2
    else { d with closers := d.closers + 1 }
  | .askClose =>
    if d.closers = 0 then d
    else { d.asked d.lifecycle.askClose.2 with closers := d.closers - 1 }
  | .advance patient =>
    match d.lifecycle.advance patient with
    | none => d
    | some next => d.advanced next
  | .use f => { d with lifecycle := d.lifecycle.onStream f, basis := none }

def after (d : Docket) (moves : List Move) : Docket := moves.foldl step d

/-- Nobody has asked for anything. -/
def start (s : LogStream) : Docket where
  lifecycle := { stream := s }

/-! ## What every move keeps -/

structure Filed (d : Docket) : Prop where
  order : d.queued
    = d.entries.map DocketEntry.job ++ d.lifecycle.atWork.toList ++ d.lifecycle.queue
  told : d.entries.map (fun e => (e.job.ticket, e.outcome))
    = d.finished ++ d.lifecycle.due.toList
  distinct : (d.queued.map Job.ticket).Nodup
  below : ∀ job ∈ d.queued, job.ticket < d.lifecycle.tickets.length
  waiting : ∀ job ∈ d.queued, job.ticket ∉ d.finished.map Prod.fst →
    (d.lifecycle.ticket job.ticket).outcome = none
  answered : ∀ result ∈ d.finished, (d.lifecycle.ticket result.1).outcome = some result.2
  /-- A ticket without a job was finished when it was issued. -/
  jobless : ∀ n < d.lifecycle.tickets.length, n ∉ d.queued.map Job.ticket →
    (d.lifecycle.ticket n).isDone = true
  opens : d.lifecycle.unreleased.filter (·.command = .openUp)
    = d.lifecycle.pendingOpen.toList.map (⟨·, .openUp⟩)
  own : ∀ e ∈ d.entries, ∀ s, e.basis = some s →
    e.outcome = ((LogStream.perform e.job.command).run s).1
  basis : ∀ job progress, d.lifecycle.current = some (job, progress) → ∀ s, d.basis = some s →
    Lifecycle.remainder job progress d.lifecycle.stream = (LogStream.perform job.command).run s

variable {d : Docket}

theorem filed_start (s : LogStream) : (start s).Filed where
  order := rfl
  told := rfl
  distinct := List.nodup_nil
  below := by simp [start]
  waiting := by simp [start]
  answered := by simp [start]
  jobless := by simp [start]
  opens := rfl
  own := by simp [start]
  basis := by simp [start]

/-- The jobs that are not finished are those that were queued behind the ones that are. -/
theorem Filed.tickets (h : d.Filed) : d.queued.map Job.ticket
    = d.finished.map Prod.fst ++ d.lifecycle.jobs.map Job.ticket := by
  have hentries := congrArg (List.map Prod.fst) h.told
  rw [List.map_map, List.map_append] at hentries
  have hqueued := congrArg (List.map Job.ticket) h.order
  rw [List.map_append, List.map_append, List.map_map,
    show Job.ticket ∘ DocketEntry.job = Prod.fst ∘ fun e : DocketEntry => (e.job.ticket, e.outcome)
      from rfl, hentries] at hqueued
  rw [hqueued, Lifecycle.jobs]
  cases hc : d.lifecycle.current with
  | none => simp [Lifecycle.due, Lifecycle.atWork, hc]
  | some current =>
    obtain ⟨job, progress⟩ := current
    cases hp : progress.result? <;> simp [Lifecycle.due, Lifecycle.atWork, hc, hp]

/-- A ticket that was finished belongs to a job. -/
theorem Filed.mem_of_finished (h : d.Filed) {n : Nat} (hn : n ∈ d.finished.map Prod.fst) :
    n ∈ d.queued.map Job.ticket := by
  rw [h.tickets]
  exact List.mem_append_left _ hn

section Jobs

variable {job : Job}

theorem Filed.lt_of_job (h : d.Filed) (hjob : job ∈ d.lifecycle.jobs) :
    job.ticket < d.lifecycle.tickets.length := by
  have hmem : job.ticket ∈ d.queued.map Job.ticket := by
    rw [h.tickets]
    exact List.mem_append_right _ (List.mem_map_of_mem hjob)
  obtain ⟨other, hother, hticket⟩ := List.mem_map.1 hmem
  exact hticket ▸ h.below other hother

theorem Filed.fresh_of_job (h : d.Filed) (hjob : job ∈ d.lifecycle.jobs) :
    job.ticket ∉ d.finished.map Prod.fst := by
  intro hmem
  have hdistinct := h.distinct
  rw [h.tickets] at hdistinct
  exact (List.nodup_append.1 hdistinct).2.2 _ hmem _ (List.mem_map_of_mem hjob) rfl

/-- The ticket of a job that is not finished has no outcome. -/
theorem Filed.pending_of_job (h : d.Filed) (hjob : job ∈ d.lifecycle.jobs) :
    (d.lifecycle.ticket job.ticket).outcome = none := by
  have hmem : job.ticket ∈ d.queued.map Job.ticket := by
    rw [h.tickets]
    exact List.mem_append_right _ (List.mem_map_of_mem hjob)
  obtain ⟨other, hother, hticket⟩ := List.mem_map.1 hmem
  exact hticket ▸ h.waiting other hother (hticket ▸ h.fresh_of_job hjob)

end Jobs

/-- Somebody else uses the stream. -/
theorem Filed.use (h : d.Filed) (f : LogStream → LogStream) : (d.step (.use f)).Filed :=
  { h with basis := by simp [step] }

/-- A ticket is issued that needs no job. -/
theorem Filed.issue (h : d.Filed) {c : Completion Unit} (hc : c.isDone = true) :
    (d.asked (d.lifecycle.issue c).2).Filed := by
  have hqueued : (d.asked (d.lifecycle.issue c).2).queued = d.queued := by
    simp [asked, Lifecycle.issue]
  have hsame : ∀ {n}, n < d.lifecycle.tickets.length →
      (d.lifecycle.issue c).2.ticket n = d.lifecycle.ticket n :=
    fun hlt => Lifecycle.ticket_append_of_lt hlt c
  refine { h with
    order := hqueued.trans h.order
    distinct := hqueued ▸ h.distinct
    below := fun job hjob => ?_
    waiting := fun job hjob hn => ?_
    answered := fun result hr => ?_
    jobless := fun n hn hfree => ?_ }
  · rw [hqueued] at hjob
    have := h.below job hjob
    simp only [asked, Lifecycle.issue, List.length_append, List.length_singleton]
    omega
  · rw [hqueued] at hjob
    exact (congrArg _ (hsame (h.below job hjob))).trans (h.waiting job hjob hn)
  · obtain ⟨job, hjob, hticket⟩ :=
      List.mem_map.1 (h.mem_of_finished (List.mem_map_of_mem hr))
    have hlt := h.below job hjob
    rw [hticket] at hlt
    exact (congrArg _ (hsame hlt)).trans (h.answered result hr)
  · rw [hqueued] at hfree
    simp only [asked, Lifecycle.issue, List.length_append, List.length_singleton] at hn
    rcases Nat.lt_or_ge n d.lifecycle.tickets.length with hlt | hge
    · exact (congrArg _ (hsame hlt)).trans (h.jobless n hlt hfree)
    · obtain rfl : n = d.lifecycle.tickets.length := by omega
      exact (congrArg _ (Lifecycle.ticket_append_self c)).trans hc

/-- A job is queued, as the open that others share or as a job of its own. -/
theorem Filed.submit (h : d.Filed) (command : Command) (pending : Option Nat)
    (hopens : (d.lifecycle.unreleased ++ [(⟨d.lifecycle.tickets.length, command⟩ : Job)]).filter
      (·.command = .openUp) = pending.toList.map (⟨·, .openUp⟩)) :
    (d.asked { (d.lifecycle.submit command).2 with pendingOpen := pending }).Filed := by
  generalize hnext : d.asked { (d.lifecycle.submit command).2 with pendingOpen := pending } = e
  have hqueued : e.queued = d.queued ++ [⟨d.lifecycle.tickets.length, command⟩] := by
    simp [← hnext, asked, Lifecycle.submit, Lifecycle.issue]
  have hlength : e.lifecycle.tickets.length = d.lifecycle.tickets.length + 1 := by
    simp [← hnext, asked, Lifecycle.submit, Lifecycle.issue]
  have hsame : ∀ {n}, n < d.lifecycle.tickets.length →
      e.lifecycle.ticket n = d.lifecycle.ticket n := by
    intro n hlt
    rw [← hnext]
    exact Lifecycle.ticket_append_of_lt hlt .pending
  have hnew : e.lifecycle.ticket d.lifecycle.tickets.length = .pending := by
    rw [← hnext]
    exact Lifecycle.ticket_append_self .pending
  have hfree : d.lifecycle.tickets.length ∉ d.queued.map Job.ticket := by
    intro hmem
    obtain ⟨job, hjob, hticket⟩ := List.mem_map.1 hmem
    have := h.below job hjob
    omega
  have hunreleased : e.lifecycle.unreleased
      = d.lifecycle.unreleased ++ [⟨d.lifecycle.tickets.length, command⟩] := by
    rw [← hnext]
    unfold asked Lifecycle.submit Lifecycle.issue Lifecycle.unreleased
    dsimp only
    split <;> rfl
  refine {
    order := ?_
    told := by rw [← hnext]; exact h.told
    distinct := ?_
    below := fun job hjob => ?_
    waiting := fun job hjob hn => ?_
    answered := fun result hr => ?_
    jobless := fun n hn hjob => ?_
    opens := ?_
    own := by rw [← hnext]; exact h.own
    basis := by rw [← hnext]; exact h.basis }
  · rw [hqueued, h.order, List.append_assoc, ← hnext]
    rfl
  · rw [hqueued, List.map_append]
    refine List.nodup_append.2 ⟨h.distinct, by simp, fun n hold last hlast heq => ?_⟩
    have hlast' : last = d.lifecycle.tickets.length := by simpa using hlast
    rw [heq, hlast'] at hold
    exact hfree hold
  · rw [hqueued] at hjob
    rcases List.mem_append.1 hjob with hold | hlast
    · have := h.below job hold
      omega
    · obtain rfl := List.mem_singleton.1 hlast
      dsimp only
      omega
  · rw [hqueued] at hjob
    rcases List.mem_append.1 hjob with hold | hlast
    · rw [hsame (h.below job hold)]
      refine h.waiting job hold ?_
      rw [← hnext] at hn
      exact hn
    · obtain rfl := List.mem_singleton.1 hlast
      rw [hnew]
      rfl
  · have hr' : result ∈ d.finished := by
      rw [← hnext] at hr
      exact hr
    obtain ⟨job, hjob, hticket⟩ :=
      List.mem_map.1 (h.mem_of_finished (List.mem_map_of_mem hr'))
    have hlt := h.below job hjob
    rw [hticket] at hlt
    rw [hsame hlt]
    exact h.answered result hr'
  · rw [hqueued, List.map_append, List.mem_append, not_or] at hjob
    have hne : n ≠ d.lifecycle.tickets.length := by simpa using hjob.2
    have hlt : n < d.lifecycle.tickets.length := by omega
    rw [hsame hlt]
    exact h.jobless n hlt hjob.1
  · rw [hunreleased, hopens, ← hnext]
    rfl

/-- A job that is no open leaves the shared open alone. -/
theorem Filed.submit_other (h : d.Filed) {command : Command} (hc : command ≠ .openUp) :
    (d.asked (d.lifecycle.submit command).2).Filed := by
  refine h.submit command d.lifecycle.pendingOpen ?_
  rw [List.filter_append, h.opens]
  simp [hc]

theorem Filed.askClose (h : d.Filed) : (d.asked d.lifecycle.askClose.2).Filed := by
  unfold Lifecycle.askClose
  split
  · exact h.issue rfl
  · exact h.submit_other (by simp)

theorem Filed.requestClose (h : d.Filed) : (d.asked d.lifecycle.requestClose.2).Filed := by
  rw [Lifecycle.requestClose_eq]
  split
  · exact h.issue rfl
  · exact h.askClose

theorem Filed.requestOpen (h : d.Filed) : (d.asked d.lifecycle.requestOpen.2).Filed := by
  unfold Lifecycle.requestOpen
  split
  · have hsame : d.asked d.lifecycle = d := by simp [asked]
    rw [hsame]
    exact h
  · next hnone =>
    refine h.submit .openUp _ ?_
    rw [List.filter_append, h.opens, hnone]
    rfl

theorem Filed.ask (h : d.Filed) (command : Command) :
    (d.asked (d.lifecycle.request command).2).Filed := by
  cases command with
  | openUp => exact h.requestOpen
  | close => exact h.requestClose
  | startAppender => exact h.submit_other (by simp)
  | stopAppender => exact h.submit_other (by simp)
  | truncate position => exact h.submit_other (by simp)

/-! ## The lifecycle advances -/

theorem Filed.take (h : d.Filed) {job : Job} {rest : List Job} (hc : d.lifecycle.current = none)
    (hq : d.lifecycle.queue = job :: rest) :
    (d.advanced { d.lifecycle with queue := rest, current := some (job, .taken) }).Filed where
  order := by
    rw [show (d.advanced _).queued = d.queued from rfl, h.order]
    simp [advanced, Lifecycle.atWork, Lifecycle.due, Progress.result?, hc, hq]
  told := by
    have htold := h.told
    simp only [Lifecycle.due, hc, Option.bind_none, Option.toList_none, List.append_nil] at htold
    simp [advanced, Lifecycle.due, Progress.result?, hc, htold]
  distinct := h.distinct
  below := h.below
  waiting := by
    simp only [advanced, Option.isNone_some, Bool.false_eq_true, if_false]
    exact h.waiting
  answered := by
    simp only [advanced, Option.isNone_some, Bool.false_eq_true, if_false]
    exact h.answered
  jobless := h.jobless
  opens := by
    have hopens := h.opens
    rw [Lifecycle.unreleased, hc] at hopens
    dsimp only at hopens
    rw [hq] at hopens
    exact hopens
  own := by
    simp only [advanced, Lifecycle.due, hc, Option.bind_none]
    exact h.own
  basis := by
    intro other progress hcurrent s hs
    simp only [advanced, hc, Option.isNone_none, if_true, Option.some.injEq, Prod.mk.injEq]
      at hcurrent hs
    obtain ⟨rfl, rfl⟩ := hcurrent
    subst hs
    rfl

theorem unreleased_eq {l : Lifecycle} {job : Job} {progress : Progress}
    (hc : l.current = some (job, progress)) (hp : ∀ outcome, progress ≠ .released outcome) :
    l.unreleased = job :: l.queue := by
  unfold Lifecycle.unreleased
  rw [hc]
  cases progress with
  | released outcome => exact absurd rfl (hp outcome)
  | _ => rfl

theorem Filed.work (h : d.Filed) {job : Job} {before after : Progress} {s : LogStream}
    (hc : d.lifecycle.current = some (job, before))
    (hw : Lifecycle.Worked job d.lifecycle.stream before after s) :
    (d.advanced (d.lifecycle.reach job after s)).Filed := by
  obtain ⟨hbefore, hafter⟩ := hw.result
  have hremainder := hw.remainder_eq
  have hbasis := h.basis job before hc
  have horder := h.order
  have htold := h.told
  simp only [Lifecycle.atWork, Lifecycle.due, hc, Option.bind_some, hbefore, Option.isNone_none,
    if_true, Option.map_none, Option.toList_none, Option.toList_some, List.append_nil]
    at horder htold
  -- the job is carried out by this step, or work on it goes on
  have hentries : (d.advanced (d.lifecycle.reach job after s)).entries = d.entries
        ∧ after.result? = none ∨
      ∃ outcome, after = .handled outcome ∧
        (d.advanced (d.lifecycle.reach job after s)).entries
          = d.entries ++ [⟨job, outcome, d.basis⟩] := by
    cases after with
    | handled outcome =>
      refine .inr ⟨outcome, rfl, ?_⟩
      simp [advanced, Lifecycle.due, Lifecycle.reach, hc, hbefore]
    | released outcome => exact absurd rfl (hafter outcome)
    | _ =>
      refine .inl ⟨?_, rfl⟩
      simp [advanced, Lifecycle.due, Lifecycle.reach, hc, hbefore]
  have hopens : (d.lifecycle.reach job after s).unreleased = d.lifecycle.unreleased := by
    rw [unreleased_eq rfl hafter, unreleased_eq hc fun outcome he => by simp [he,
      Progress.result?] at hbefore]
    rfl
  refine {
    order := ?_
    told := ?_
    distinct := h.distinct
    below := h.below
    waiting := h.waiting
    answered := h.answered
    jobless := h.jobless
    opens := hopens ▸ h.opens
    own := ?_
    basis := ?_ }
  · rcases hentries with ⟨hsame, hnone⟩ | ⟨outcome, rfl, hmore⟩
    · rw [hsame, show (d.advanced (d.lifecycle.reach job after s)).queued = d.queued from rfl,
        horder]
      simp [advanced, Lifecycle.reach, Lifecycle.atWork, hnone]
    · rw [hmore, show (d.advanced (d.lifecycle.reach job (.handled outcome) s)).queued = d.queued
        from rfl, horder]
      simp [advanced, Lifecycle.reach, Lifecycle.atWork, Progress.result?]
  · rcases hentries with ⟨hsame, hnone⟩ | ⟨outcome, rfl, hmore⟩
    · rw [hsame, htold]
      simp [advanced, Lifecycle.reach, Lifecycle.due, hnone]
    · rw [hmore, List.map_append, htold]
      simp [advanced, Lifecycle.reach, Lifecycle.due, Progress.result?]
  · intro e he t ht
    rcases hentries with ⟨hsame, -⟩ | ⟨outcome, rfl, hmore⟩
    · exact h.own e (hsame ▸ he) t ht
    · rw [hmore] at he
      rcases List.mem_append.1 he with hold | hlast
      · exact h.own e hold t ht
      · obtain rfl := List.mem_singleton.1 hlast
        rw [← hbasis t ht, ← hremainder]
        rfl
  · intro other progress hcurrent t ht
    have hsame : (d.advanced (d.lifecycle.reach job after s)).basis = d.basis := by
      simp [advanced, hc]
    simp only [advanced, Lifecycle.reach, Option.some.injEq, Prod.mk.injEq] at hcurrent
    obtain ⟨rfl, rfl⟩ := hcurrent
    exact hremainder.trans (hbasis t (hsame ▸ ht))

theorem entries_of_due (h : d.lifecycle.due ≠ none) (next : Lifecycle) :
    (d.advanced next).entries = d.entries := by
  show (match d.lifecycle.due, next.current with
    | none, some (job, .handled outcome) => d.entries ++ [⟨job, outcome, d.basis⟩]
    | _, _ => d.entries) = d.entries
  split
  · next hnone _ => exact absurd hnone h
  · rfl

theorem Filed.release (h : d.Filed) {job : Job} {outcome : Except LogError Unit}
    (hc : d.lifecycle.current = some (job, .handled outcome)) (ho : job.command = .openUp) :
    (d.advanced { d.lifecycle with
      pendingOpen := none, current := some (job, .released outcome) }).Filed := by
  have hentries := entries_of_due (d := d) (by simp [Lifecycle.due, hc, Progress.result?])
    { d.lifecycle with pendingOpen := none, current := some (job, .released outcome) }
  have horder := h.order
  have htold := h.told
  have hopens := h.opens
  simp only [Lifecycle.atWork, Lifecycle.due, hc] at horder htold
  rw [unreleased_eq hc (by simp), List.filter_cons_of_pos (by simp [ho])] at hopens
  -- the job released is the one open that was shared
  have hrest := congrArg List.tail hopens
  rw [List.tail_cons] at hrest
  exact {
    order := by
      rw [hentries]
      exact horder
    told := by
      rw [hentries]
      exact htold
    distinct := h.distinct
    below := h.below
    waiting := h.waiting
    answered := h.answered
    jobless := h.jobless
    opens := by
      refine Eq.trans hrest ?_
      cases d.lifecycle.pendingOpen <;> rfl
    own := hentries ▸ h.own
    basis := by
      intro other progress hcurrent s hs
      simp only [advanced, hc, Option.isNone_some, Bool.false_eq_true, if_false,
        Option.some.injEq, Prod.mk.injEq] at hcurrent hs
      obtain ⟨rfl, rfl⟩ := hcurrent
      exact h.basis job _ hc s hs }

/-- The ticket of the job that was carried out last is finished, for the first time. -/
theorem Filed.finish (h : d.Filed) {job : Job} {progress : Progress}
    {outcome : Except LogError Unit} (hc : d.lifecycle.current = some (job, progress))
    (hp : progress.result? = some outcome)
    (ho : job.command = .openUp → progress = .released outcome) :
    (d.advanced (d.lifecycle.finish job outcome)).Filed := by
  have hdue : d.lifecycle.due = some (job.ticket, outcome) := by simp [Lifecycle.due, hc, hp]
  have hentries := entries_of_due (d := d) (by simp [hdue]) (d.lifecycle.finish job outcome)
  have hfinished : (d.advanced (d.lifecycle.finish job outcome)).finished
      = d.finished ++ [(job.ticket, outcome)] := by simp [advanced, Lifecycle.finish, hdue]
  have hjob : job ∈ d.lifecycle.jobs := by simp [Lifecycle.jobs, hc]
  have hfresh := h.fresh_of_job hjob
  have hlt := h.lt_of_job hjob
  have hpending := h.pending_of_job hjob
  have hself := Lifecycle.ticket_finish_self hlt hpending outcome
  have hlength : (d.lifecycle.finish job outcome).tickets.length = d.lifecycle.tickets.length := by
    simp [Lifecycle.finish]
  exact {
    order := by
      rw [hentries]
      show d.queued = _
      rw [h.order]
      simp [advanced, Lifecycle.finish, Lifecycle.atWork, hc, hp]
    told := by
      rw [hentries, hfinished, h.told, hdue]
      simp [advanced, Lifecycle.finish, Lifecycle.due]
    distinct := h.distinct
    below := fun other hother => by
      show other.ticket < (d.lifecycle.finish job outcome).tickets.length
      rw [hlength]
      exact h.below other hother
    waiting := fun other hother hn => by
      rw [hfinished, List.map_append, List.mem_append, not_or] at hn
      have hne : job.ticket ≠ other.ticket := by
        intro heq
        exact hn.2 (by simp [heq])
      exact (congrArg _ (Lifecycle.ticket_finish_of_ne hne outcome)).trans
        (h.waiting other hother hn.1)
    answered := fun result hr => by
      rw [hfinished] at hr
      rcases List.mem_append.1 hr with hold | hlast
      · have hne : job.ticket ≠ result.1 := by
          intro heq
          exact hfresh (heq ▸ List.mem_map_of_mem hold)
        exact (congrArg _ (Lifecycle.ticket_finish_of_ne hne outcome)).trans (h.answered result hold)
      · obtain rfl := List.mem_singleton.1 hlast
        exact congrArg Completion.outcome hself
    jobless := fun n hn hfree => by
      have hne : job.ticket ≠ n := by
        rintro rfl
        apply hfree
        rw [show (d.advanced _).queued = d.queued from rfl, h.tickets]
        exact List.mem_append_right _ (List.mem_map_of_mem hjob)
      have hlt' : n < d.lifecycle.tickets.length := hlength ▸ hn
      exact (congrArg _ (Lifecycle.ticket_finish_of_ne hne outcome)).trans
        (h.jobless n hlt' hfree)
    opens := by
      have hopens := h.opens
      by_cases hreleased : progress = .released outcome
      · rw [Lifecycle.unreleased, hc, hreleased] at hopens
        exact hopens
      · have hother : ∀ result, progress ≠ .released result := by
          intro result heq
          rw [heq, Progress.result?, Option.some.injEq] at hp
          exact hreleased (hp ▸ heq)
        rw [unreleased_eq hc hother, List.filter_cons_of_neg (by simpa using mt ho hreleased)]
          at hopens
        exact hopens
    own := hentries ▸ h.own
    basis := by simp [advanced, Lifecycle.finish] }

theorem Filed.advance (h : d.Filed) (patient : Bool) : (d.step (.advance patient)).Filed := by
  unfold step
  dsimp only
  split
  · exact h
  · next next hnext =>
    cases Lifecycle.advance_cases hnext with
    | take hc hq => exact h.take hc hq
    | work hc hw => exact h.work hc hw
    | release hc ho => exact h.release hc ho
    | finish hc =>
      rcases hc with ⟨hc, ho⟩ | hc
      · exact h.finish hc rfl fun hopen => absurd hopen ho
      · exact h.finish hc rfl fun _ => rfl

theorem Filed.step (h : d.Filed) (move : Move) : (d.step move).Filed := by
  cases move with
  | ask command => exact h.ask command
  | look =>
    unfold Docket.step
    dsimp only
    split
    · exact h.requestClose
    · exact { h with }
  | askClose =>
    unfold Docket.step
    dsimp only
    split
    · exact h
    · exact { h.askClose with }
  | advance patient => exact h.advance patient
  | use f => exact h.use f

theorem Filed.after (h : d.Filed) (moves : List Move) : (d.after moves).Filed := by
  induction moves generalizing d with
  | nil => exact h
  | cons move rest ih => exact ih (h.step move)

end Docket

end PartitionLog
