import PartitionLog.Proofs.Docket

/-!
# The order of lifecycle commands

Jobs are carried out one after the other as they were queued, an open is shared just as long as it is
queued or running, a close asked for meanwhile is refused, and each ticket is finished once, with what
became of its own job: the record of a lifecycle in use is `InOrder` (`commands_in_order`).
-/

namespace PartitionLog

/-! ## Tickets last -/

namespace Lifecycle

theorem lt_of_outcome {l : Lifecycle} {n : Nat} {o : Except LogError Unit}
    (h : (l.ticket n).outcome = some o) : n < l.tickets.length := by
  rcases Nat.lt_or_ge n l.tickets.length with hlt | hge
  · exact hlt
  · rw [ticket, List.getD_eq_getElem?_getD, List.getElem?_eq_none hge] at h
    cases h

/-- `next` has the tickets of `l`, with the outcomes they had. -/
def Lasting (l next : Lifecycle) : Prop :=
  ∀ n o, (l.ticket n).outcome = some o → (next.ticket n).outcome = some o

theorem lasting_issue (l : Lifecycle) (c : Completion Unit) : l.Lasting (l.issue c).2 := by
  intro n o h
  rw [← h]
  exact congrArg _ (ticket_append_of_lt (lt_of_outcome h) c)

theorem lasting_askClose (l : Lifecycle) : l.Lasting l.askClose.2 := by
  unfold askClose
  split
  · exact lasting_issue l _
  · exact lasting_issue l .pending

theorem lasting_request (l : Lifecycle) (command : Command) : l.Lasting (l.request command).2 := by
  cases command with
  | openUp =>
    unfold request requestOpen
    dsimp only
    split
    · exact fun _ _ h => h
    · exact lasting_issue l .pending
  | close =>
    show l.Lasting l.requestClose.2
    rw [requestClose_eq]
    split
    · exact lasting_issue l _
    · exact lasting_askClose l
  | _ => exact lasting_issue l .pending

theorem lasting_finish (l : Lifecycle) (job : Job) (outcome : Except LogError Unit) :
    l.Lasting (l.finish job outcome) := by
  intro n o h
  by_cases hn : job.ticket = n
  · subst hn
    have hlt := lt_of_outcome h
    obtain ⟨c, hc⟩ : ∃ c, l.tickets[job.ticket]? = some c := ⟨_, List.getElem?_eq_getElem hlt⟩
    simp only [ticket, finish, List.getD_eq_getElem?_getD,
      List.getElem?_modify, hc, Option.getD_some] at h ⊢
    simp [Completion.finish, h]
  · rw [ticket_finish_of_ne hn]
    exact h

theorem lasting_advance {l next : Lifecycle} (h : l.Step next) : l.Lasting next := by
  cases h with
  | finish hc => exact lasting_finish l _ _
  | _ => exact fun _ _ h => h

/-- A request that is answered without a job of its own. -/
def AnsweredAtOnce (l : Lifecycle) : Command → Prop
  | .openUp => l.pendingOpen.isSome
  | .close => l.pendingOpen.isSome ∨ l.stream.state = .closed
  | _ => False

end Lifecycle

namespace Docket

variable {d : Docket}

theorem lasting_step (d : Docket) (move : Move) : d.lifecycle.Lasting (d.step move).lifecycle := by
  cases move with
  | ask command => exact Lifecycle.lasting_request d.lifecycle command
  | look =>
    unfold Docket.step
    dsimp only
    split
    · exact Lifecycle.lasting_request d.lifecycle .close
    · exact fun _ _ h => h
  | askClose =>
    unfold Docket.step
    dsimp only
    split
    · exact fun _ _ h => h
    · exact Lifecycle.lasting_askClose d.lifecycle
  | advance patient =>
    unfold Docket.step
    dsimp only
    split
    · exact fun _ _ h => h
    · next hnext => exact Lifecycle.lasting_advance (Lifecycle.advance_cases hnext)
  | use f => exact fun _ _ h => h

theorem lasting_after (d : Docket) (moves : List Move) :
    d.lifecycle.Lasting (d.after moves).lifecycle := by
  induction moves generalizing d with
  | nil => exact fun _ _ h => h
  | cons move rest ih => exact fun n o h => ih (d.step move) n o (lasting_step d move n o h)

/-! ## The record is in order -/

structure InOrder (d : Docket) : Prop where
  /-- An open is pending as long as its job is queued or running, and there is one such job. -/
  pending : ∀ t, d.lifecycle.pendingOpen = some t ↔
    (⟨t, .openUp⟩ : Job) ∈ d.lifecycle.unreleased
  single : (d.lifecycle.unreleased.filter (·.command = .openUp)).length ≤ 1
  /-- Whoever asks for an open meanwhile gets its ticket. -/
  shares : ∀ t, d.lifecycle.pendingOpen = some t →
    d.lifecycle.request .openUp = (t, d.lifecycle) ∧ d.step (.ask .openUp) = d
  /-- Whoever asks for a close meanwhile is refused; nothing else comes of it. -/
  refuses : d.lifecycle.pendingOpen.isSome → ∀ move, move = .ask .close ∨ move = .look →
    d.step move = { d with
      lifecycle := { d.lifecycle with tickets := d.lifecycle.tickets ++
        [.finished (.error (.invalidState (.opening d.lifecycle.stream.name)))] } }
  /-- Any other request queues its own job, behind all others. -/
  submits : ∀ command, ¬ d.lifecycle.AnsweredAtOnce command →
    (d.step (.ask command)).queued = d.queued ++ [⟨(d.lifecycle.request command).1, command⟩]
  /-- The jobs are carried out one by one as they were queued. -/
  order : d.queued
    = d.entries.map DocketEntry.job ++ d.lifecycle.atWork.toList ++ d.lifecycle.queue
  /-- The ticket of a job that was carried out is finished with its outcome, or is next to be. -/
  told : d.entries.map (fun e => (e.job.ticket, e.outcome))
    = d.finished ++ d.lifecycle.due.toList
  once : (d.finished.map Prod.fst).Nodup
  /-- A ticket has an outcome just if it was finished with it, if it is the ticket of a job. -/
  answered : ∀ job ∈ d.queued, ∀ outcome,
    (d.lifecycle.ticket job.ticket).outcome = some outcome ↔ (job.ticket, outcome) ∈ d.finished
  jobless : ∀ n < d.lifecycle.tickets.length, n ∉ d.queued.map Job.ticket →
    (d.lifecycle.ticket n).isDone = true
  lasts : ∀ moves, d.lifecycle.Lasting (d.after moves).lifecycle
  /-- The outcome is that of carrying out the command, unless others used the stream meanwhile. -/
  own : ∀ e ∈ d.entries, ∀ s, e.basis = some s →
    e.outcome = ((LogStream.perform e.job.command).run s).1
  /-- Where there is nothing left to do, every ticket is finished. -/
  settled : d.lifecycle.stream.storage.isGated = false → d.lifecycle.advance false = none →
    ∀ n < d.lifecycle.tickets.length, (d.lifecycle.ticket n).isDone = true

theorem Filed.once (h : d.Filed) : (d.finished.map Prod.fst).Nodup := by
  have hdistinct := h.distinct
  rw [h.tickets] at hdistinct
  exact (List.nodup_append.1 hdistinct).1

theorem Filed.pending (h : d.Filed) (t : Nat) : d.lifecycle.pendingOpen = some t ↔
    (⟨t, .openUp⟩ : Job) ∈ d.lifecycle.unreleased := by
  have hmem : (⟨t, .openUp⟩ : Job) ∈ d.lifecycle.unreleased ↔
      (⟨t, .openUp⟩ : Job) ∈ d.lifecycle.unreleased.filter (·.command = .openUp) := by simp
  rw [hmem, h.opens]
  cases d.lifecycle.pendingOpen with
  | none => simp
  | some other => simp [eq_comm]

theorem Filed.single (h : d.Filed) :
    (d.lifecycle.unreleased.filter (·.command = .openUp)).length ≤ 1 := by
  rw [h.opens]
  cases d.lifecycle.pendingOpen <;> simp

theorem Filed.outcome_iff (h : d.Filed) {job : Job} (hjob : job ∈ d.queued)
    (outcome : Except LogError Unit) :
    (d.lifecycle.ticket job.ticket).outcome = some outcome ↔
      (job.ticket, outcome) ∈ d.finished := by
  constructor
  · intro hout
    by_cases hmem : job.ticket ∈ d.finished.map Prod.fst
    · obtain ⟨⟨n, other⟩, hr, hn⟩ := List.mem_map.1 hmem
      have hother := h.answered _ hr
      rw [hn, hout, Option.some.injEq] at hother
      rw [hother, ← hn]
      exact hr
    · have hnone := h.waiting job hjob hmem
      rw [hout] at hnone
      cases hnone
  · intro hr
    exact h.answered _ hr

theorem Filed.submits (d : Docket) {command : Command}
    (hc : ¬ d.lifecycle.AnsweredAtOnce command) :
    (d.step (.ask command)).queued = d.queued ++ [⟨(d.lifecycle.request command).1, command⟩] := by
  have hjob : (d.asked (d.lifecycle.submit command).2).queued
      = d.queued ++ [⟨(d.lifecycle.submit command).1, command⟩] := by
    simp [asked, Lifecycle.submit, Lifecycle.issue]
  cases command with
  | openUp =>
    have hnone : d.lifecycle.pendingOpen = none := by
      simpa [Lifecycle.AnsweredAtOnce] using hc
    unfold Docket.step Lifecycle.request Lifecycle.requestOpen
    dsimp only
    rw [hnone]
    exact hjob
  | close =>
    rw [Lifecycle.AnsweredAtOnce, not_or] at hc
    unfold Docket.step Lifecycle.request
    dsimp only
    rw [Lifecycle.requestClose_eq, if_neg hc.1, Lifecycle.askClose, if_neg hc.2]
    exact hjob
  | startAppender => exact hjob
  | stopAppender => exact hjob
  | truncate position => exact hjob

theorem Filed.settled (h : d.Filed) (hgate : d.lifecycle.stream.storage.isGated = false)
    (hnone : d.lifecycle.advance false = none) {n : Nat} (hn : n < d.lifecycle.tickets.length) :
    (d.lifecycle.ticket n).isDone = true := by
  obtain ⟨hc, hq⟩ := Lifecycle.idle_of_advance_eq_none hgate hnone
  by_cases hjob : n ∈ d.queued.map Job.ticket
  · -- with nothing queued and nothing at hand, all jobs were told of
    have hfinished : n ∈ d.finished.map Prod.fst := by
      rw [h.tickets] at hjob
      simpa [Lifecycle.jobs, hc, hq] using hjob
    obtain ⟨result, hr, rfl⟩ := List.mem_map.1 hfinished
    rw [Completion.isDone, h.answered result hr]
    rfl
  · exact h.jobless n hn hjob

/-- Whatever clients ask, however the lifecycle gets on and whoever uses the stream meanwhile: the
jobs are carried out one after the other as they were queued, an open is shared as long as it is
queued or running, a close is refused as long, and every ticket is finished once, with what became
of its own job. -/
theorem commands_in_order (s : LogStream) (moves : List Move) : ((start s).after moves).InOrder := by
  have h := (filed_start s).after moves
  generalize (start s).after moves = d at h
  exact {
    pending := h.pending
    single := h.single
    shares := by
      intro t ht
      have hsame : d.lifecycle.request .openUp = (t, d.lifecycle) := by
        unfold Lifecycle.request Lifecycle.requestOpen
        dsimp only
        rw [ht]
      refine ⟨hsame, ?_⟩
      unfold Docket.step
      dsimp only
      rw [hsame]
      simp [asked]
    refuses := by
      intro hsome move hmove
      have hrefused : d.asked d.lifecycle.requestClose.2 = { d with
          lifecycle := { d.lifecycle with tickets := d.lifecycle.tickets ++
            [.finished (.error (.invalidState (.opening d.lifecycle.stream.name)))] } } := by
        rw [Lifecycle.requestClose_eq, if_pos hsome]
        simp [asked, Lifecycle.issue]
      rcases hmove with rfl | rfl
      · exact hrefused
      · unfold Docket.step
        dsimp only
        rw [if_pos hsome]
        exact hrefused
    submits := fun command hc => Filed.submits d hc
    order := h.order
    told := h.told
    once := h.once
    answered := fun job hjob outcome => h.outcome_iff hjob outcome
    jobless := h.jobless
    lasts := lasting_after d
    own := h.own
    settled := fun hgate hnone n hn => h.settled hgate hnone hn }

end Docket

end PartitionLog
