import PartitionLog.Proofs.ChangeCalls

/-!
# Changes of role keep a processor within its stream

A deed leaves the partition idle or in a change that waits (`Standing`), whatever it stood in before,
and all states that it leads through follow one another (`Standing.carryOut`). So over any deeds every
state has its processor within an open stream, and a change to the inactive role that succeeds leaves
no processor and a closed stream (`processor_within_stream`).
-/

namespace PartitionLog.Partition

variable {p q r : Partition} {l : Lifecycle} {target : Role} {term t : Nat}
variable {rest left : List StepCall}

/-! ## Deeds -/

/-- How deeds leave the partition. -/
inductive Standing (p : Partition) : Prop where
  | idle {l : Lifecycle} (hheld : p.held = none) (h : p.Rigged none l) (hl : l.Resting)
    (hr : p.Ranked)
  | opens {l : Lifecycle} {change : HeldChange} {pr : Processor} (hheld : p.held = some change)
    (hawaited : change.awaited = .processor pr) (hrest : change.rest = [])
    (h : p.Rigged (some pr) l) (hl : l.Resting) (ht : change.role ≠ .inactive)
  | awaits {l : Lifecycle} {change : HeldChange} {t : Nat} (hheld : p.held = some change)
    (hawaited : change.awaited = .stream t) (h : p.Rigged none l) (hr : p.Ranked)
    (hw : Waits change.role p l t change.rest)

/-- With the inactive role recorded, no processor is held and the stream is closed. -/
def Stilled (p : Partition) : Prop :=
  p.role = some .inactive → p.processor = none ∧ p.streamState = some .closed

/-- What a deed has made of `p`, on the way through these states. -/
structure Carried (p : Partition) (states : List Partition) (q : Partition) : Prop where
  standing : q.Standing
  chain : (p :: states ++ [q]).IsChain Follows
  /-- A change that succeeds with this deed. -/
  stilled : ∀ t, (p.ticket t).outcome = none → (q.ticket t).outcome = some (.ok ()) → q.Stilled

theorem Standing.within (h : p.Standing) : p.Within := by
  cases h with
  | idle hheld h => exact h.within
  | opens hheld hawaited hrest h => exact h.within
  | awaits hheld hawaited h => exact h.within

theorem Ended.standing {result : ChangeOutcome} (h : Ended target q result) (ticket : Nat) :
    (conclude ticket term target (result, q)).Standing := by
  cases h with
  | succeeded hq hm hrole hp =>
    refine .idle rfl ⟨hq.steps, hq.stream, hq.tracked, hq.sheltered⟩ hm fun hsome => ?_
    refine ⟨target, hrole, ?_⟩
    rw [Role.isActive, bne_iff_ne]
    intro hinactive
    have hnone : (conclude ticket term target (.done (.ok ()), q)).processor = none :=
      (hp hinactive).1
    rw [hnone] at hsome
    cases hsome
  | fails e hq hm hr => exact .idle rfl ⟨hq.steps, hq.stream, hq.tracked, hq.sheltered⟩ hm hr
  | opens call pr hq hm ht =>
    exact .opens rfl rfl rfl ⟨hq.steps, hq.stream, hq.tracked, hq.sheltered⟩ hm ht
  | awaits call t hq hr hw =>
    exact .awaits rfl rfl ⟨hq.steps, hq.stream, hq.tracked, hq.sheltered⟩ hr (hw.of_same rfl)

theorem conclude_alike (q : Partition) (term : Nat) (target : Role) (ticket : Nat)
    (result : ChangeOutcome) :
    q.Alike (conclude ticket term target (result, q)) := by
  cases result <;> exact ⟨rfl, rfl, rfl⟩

/-- A ticket is finished without an error only by a change that succeeded. -/
theorem conclude_ok {ticket : Nat} {result : ChangeOutcome} (hnone : (q.ticket t).outcome = none)
    (hok : ((conclude ticket term target (result, q)).ticket t).outcome = some (.ok ())) :
    result = .done (.ok ()) := by
  cases result with
  | held call awaited rest =>
    have hsame : (q.ticket t).outcome = some (.ok ()) := hok
    rw [hnone] at hsame
    cases hsame
  | done outcome =>
    simp only [conclude, Partition.ticket, List.getD_eq_getElem?_getD, List.getElem?_modify] at hok
    rw [Partition.ticket, List.getD_eq_getElem?_getD] at hnone
    cases hc : q.tickets[t]? with
    | none => simp [hc, Completion.pending] at hok
    | some c =>
      rw [hc, Option.getD_some] at hnone
      by_cases ht : ticket = t
      · simpa [hc, ht, Completion.finish, hnone, Completion.finished] using hok
      · simp [hc, ht, hnone] at hok

theorem Ended.stilled {result : ChangeOutcome} (h : Ended target q result) {ticket : Nat}
    (hnone : (q.ticket t).outcome = none)
    (hok : ((conclude ticket term target (result, q)).ticket t).outcome = some (.ok ())) :
    (conclude ticket term target (result, q)).Stilled := by
  obtain rfl := conclude_ok hnone hok
  cases h with
  | succeeded hq hm hrole hp =>
    intro hinactive
    rw [show (conclude ticket term target (.done (.ok ()), q)).role = q.role from rfl, hrole,
      Option.some.injEq] at hinactive
    obtain ⟨hnone, hclosed⟩ := hp hinactive
    refine ⟨hnone, ?_⟩
    rw [show (conclude ticket term target (.done (.ok ()), q)).streamState = q.streamState from rfl,
      hq.streamState, hclosed]

/-- A deed that works on no ticket and in one step. -/
theorem Standing.carried (hq : q.Standing) (hgentle : p.Gentle q)
    (htickets : ∀ t, (p.ticket t).outcome = none → (q.ticket t).outcome ≠ some (.ok ())) :
    p.Carried [] q where
  standing := hq
  chain := by
    have hfollows : p.Follows q := ⟨hgentle, hq.within⟩
    simpa using hfollows
  stilled t hnone hok := absurd hok (htickets t hnone)

theorem ticket_issue (p : Partition) (c : Completion Unit) (t : Nat) :
    (p.issue c).2.ticket t = p.ticket t ∨ (p.issue c).2.ticket t = c := by
  simp only [issue, Partition.ticket, List.getD_eq_getElem?_getD]
  rcases Nat.lt_trichotomy t p.tickets.length with hlt | rfl | hgt
  · exact .inl (by rw [List.getElem?_append_left hlt])
  · exact .inr (by simp)
  · refine .inl ?_
    rw [List.getElem?_eq_none (by simp; omega), List.getElem?_eq_none (by omega)]

/-- A change whose calls are made from `p` on, after the state `first`. -/
theorem carried_of_calls (p₀ first : Partition) (term ticket : Nat) (h : p.Rigged none l)
    (hl : l.Resting) (hpoised : Poised target p l left) (hfirst : p.Alike first)
    (htickets : ∀ t, (p₀.ticket t).outcome = none → (p.ticket t).outcome = none) :
    (conclude ticket term target (makeCalls term target left p)).Standing ∧
      (first :: callStates term target left p ++
        [conclude ticket term target (makeCalls term target left p)]).IsChain Follows ∧
      ∀ t, (p₀.ticket t).outcome = none →
        ((conclude ticket term target (makeCalls term target left p)).ticket t).outcome
          = some (.ok ()) →
        (conclude ticket term target (makeCalls term target left p)).Stilled := by
  generalize hcalls : makeCalls term target left p = result
  obtain ⟨result, q⟩ := result
  obtain ⟨hended, hchain⟩ := makeCalls_spec h hl hpoised hcalls hfirst
    (conclude_alike q term target ticket result)
  refine ⟨hended.standing ticket, hchain, fun t hnone hok => ?_⟩
  obtain ⟨r, hturned, rfl⟩ := makeCalls_turned hcalls
  refine hended.stilled ?_ hok
  have hsame : (r.recorded term target result).tickets = p.tickets := by
    rw [← hturned.steady.tickets]
    unfold recorded
    split <;> rfl
  rw [Partition.ticket, hsame]
  exact htickets t hnone

theorem Standing.request (h : p.Standing) (term : Nat) (target : Role) :
    p.Carried (p.passed (.request term target)) (p.requestRole term target).2 := by
  by_cases hidle : p.held = none
  · cases h with
    | opens hheld => simp [hidle] at hheld
    | awaits hheld => simp [hidle] at hheld
    | @idle l _ h hl hr =>
      obtain ⟨listener, hsteps⟩ := h.steps
      have hissued : (p.issue .pending).2.Rigged none l :=
        ⟨h.steps, h.stream, h.tracked, h.sheltered⟩
      have hplanned : Poised target (p.issue .pending).2 l (plannedCalls p.steps.length) := by
        rw [hsteps]
        exact .fromStart hr
      obtain ⟨hstanding, hchain, hstilled⟩ := carried_of_calls p p term
        p.tickets.length hissued hl hplanned ⟨rfl, rfl, rfl⟩
        fun t hnone => by
          rcases ticket_issue p .pending t with hsame | hsame
          · rw [hsame]
            exact hnone
          · rw [hsame]
            rfl
      have hpassed : p.passed (.request term target)
          = callStates term target (plannedCalls p.steps.length) (p.issue .pending).2 := by
        rw [passed, if_neg (by simp [hidle])]
      rw [requestRole_idle hidle, hpassed]
      exact ⟨hstanding, hchain, hstilled⟩
  · have hpassed : p.passed (.request term target) = [] := by
      rw [passed, if_pos (Option.isSome_iff_ne_none.2 hidle)]
    rw [hpassed]
    refine Standing.carried ?_ ?_ fun t hnone => ?_
    · rw [requestRole_busy hidle]
      cases h with
      | idle hheld h hl hr => exact absurd hheld hidle
      | opens hheld hawaited hrest h hl ht =>
        exact .opens hheld hawaited hrest ⟨h.steps, h.stream, h.tracked, h.sheltered⟩ hl ht
      | awaits hheld hawaited h hr hw =>
        exact .awaits hheld hawaited ⟨h.steps, h.stream, h.tracked, h.sheltered⟩ hr (hw.of_same rfl)
    · rw [requestRole_busy hidle]
      exact .inl rfl
    · rw [requestRole_busy hidle]
      rcases ticket_issue p (.finished (.error (.transitionInProgress p.id target.text))) t
        with hsame | hsame
      · rw [show ({ p with tickets := p.tickets ++ [_] } : Partition).ticket t = _ from hsame, hnone]
        simp
      · rw [show ({ p with tickets := p.tickets ++ [_] } : Partition).ticket t = _ from hsame]
        simp [Completion.finished]

/-- The change that waits goes on, or it fails. -/
theorem carried_of_goOn {change : HeldChange} {answer : Except LogError Unit}
    (hfollows : p.Follows q) (hq : q.Rigged none l) (hl : l.Resting)
    (htickets : q.tickets = p.tickets)
    (hok : answer = .ok () → Poised change.role q l change.rest)
    (hfails : answer ≠ .ok () → q.Ranked) :
    p.Carried (goingOn change (answer, q)) (goOn change (answer, q)) := by
  have hsame : ∀ t, (p.ticket t).outcome = none → (q.ticket t).outcome = none := by
    intro t hnone
    rw [Partition.ticket, htickets]
    exact hnone
  cases answer with
  | ok done =>
    obtain ⟨hstanding, hchain, hstilled⟩ := carried_of_calls p q change.term
      change.ticket hq hl (hok rfl) (.refl q) hsame
    exact ⟨hstanding, .cons_cons hfollows hchain, hstilled⟩
  | error e =>
    have hended : Ended change.role q (.done (.error e)) := .fails e hq hl (hfails (by simp))
    have halike := conclude_alike q change.term change.role change.ticket (.done (.error e))
    have hlast : q.Follows (goOn change (.error e, q)) :=
      Follows.of_alike ⟨.inl rfl, hq.within⟩ (.refl q) halike
    refine ⟨hended.standing change.ticket, .cons_cons hfollows (by simpa using hlast),
      fun t hnone hok => ?_⟩
    have hdone := conclude_ok (hsame t hnone) hok
    cases hdone

theorem Standing.unchanged (h : p.Standing) : p.Carried [] p :=
  h.carried (.inl rfl) fun t hnone hok => by
    rw [hnone] at hok
    cases hok

/-- The open of a processor ended. -/
theorem Standing.letGo (h : p.Standing) (opened : Except LogError Unit) :
    p.Carried (p.passed (.letGo opened)) (p.letGo opened) := by
  rw [passed]
  unfold Partition.letGo
  cases h with
  | idle hheld h hl hr =>
    rw [hheld]
    exact Standing.unchanged (.idle hheld h hl hr)
  | awaits hheld hawaited h hr hw =>
    rw [hheld]
    dsimp only
    rw [hawaited]
    exact Standing.unchanged (.awaits hheld hawaited h hr hw)
  | @opens l change pr hheld hawaited hrest h hl ht =>
    rw [hheld]
    dsimp only
    rw [hawaited]
    have hnone : p.processor = none := h.tracked.apart rfl
    have hopened : l.stream.state = .opened := by
      apply h.sheltered
      rw [Custody.inHand, show (p.custody (some pr)).processor = none from hnone]
      rfl
    show p.Carried (goingOn change ((endInstall change.term change.role pr opened).run p))
      (goOn change ((endInstall change.term change.role pr opened).run p))
    have hbeside := endInstall_beside p change.term change.role pr opened
    generalize hend : (endInstall change.term change.role pr opened).run p = result at hbeside ⊢
    obtain ⟨answer, q⟩ := result
    obtain ⟨hturned, -⟩ := endInstall_turned hnone hend
    have hq := h.of_turns hbeside hturned.turns (.inl hopened)
    refine carried_of_goOn ⟨hbeside.gentle, hq.within⟩ hq hl hturned.steady.tickets (fun _ => ?_)
      fun hfails => ?_
    · rw [hrest]
      exact .finished fun hinactive => absurd hinactive ht
    · cases opened with
      | ok done =>
        simp only [endInstall, Attempt.run, Prod.mk.injEq] at hend
        exact absurd hend.1.symm hfails
      | error e =>
        simp only [endInstall, failInstall, Attempt.run, Prod.mk.injEq] at hend
        obtain ⟨-, rfl⟩ := hend
        exact .of_none rfl

/-- The stream's command was carried out: what the change has done by that. -/
theorem Waits.ended {call : StepCall} {outcome answer : Except LogError Unit} (hw : Waits target p l t rest)
    (h : p.Rigged none l) (hr : p.Ranked) (hout : (l.ticket t).outcome = some outcome)
    (hend : (endStream call term outcome).run p = (answer, q)) :
    ∃ m, q.Rigged none m ∧ m.Resting ∧ q.Ranked ∧
      (answer = .ok () → Poised target q m rest) := by
  have haside := endStream_aside hend
  have hrq := hr.of_same haside.processor haside.steady.role
  have hsteps : p.HasSteps := h.steps
  cases hw with
  | closing ht hp hl =>
    obtain ⟨hrest, hachieved⟩ := hl.resting hout
    obtain ⟨rfl, m, hstream, hlast, hm, hstate⟩ := endStream_spec hsteps h.stream hrest hend
    refine ⟨m, h.of_stream haside hlast hstream fun hsome => ?_, hm, hrq, fun hok => ?_⟩
    · rw [hstate]
      exact h.opened hsome
    · exact .closed hrq fun _ =>
        ⟨haside.processor.trans hp, hstate.trans (hachieved hok)⟩
  | opening ht hl =>
    obtain ⟨hrest, hachieved⟩ := hl.resting hout
    obtain ⟨rfl, m, hstream, hlast, hm, hstate⟩ := endStream_spec hsteps h.stream hrest hend
    refine ⟨m, h.of_stream haside hlast hstream fun hsome => ?_, hm, hrq, fun hok => ?_⟩
    · rw [hstate]
      exact h.opened hsome
    · exact .opened hrq (fun hinactive => absurd hinactive ht) fun _ =>
        hstate.trans (hachieved hok)

theorem Standing.resume (h : p.Standing) : p.Carried (p.passed .resume) p.resume := by
  rw [passed]
  unfold Partition.resume
  cases h with
  | idle hheld h hl hr =>
    rw [hheld]
    exact Standing.unchanged (.idle hheld h hl hr)
  | opens hheld hawaited hrest h hl ht =>
    rw [hheld, h.stream]
    dsimp only
    rw [hawaited]
    exact Standing.unchanged (.opens hheld hawaited hrest h hl ht)
  | @awaits l change t hheld hawaited h hr hw =>
    rw [hheld, h.stream]
    dsimp only
    rw [hawaited]
    dsimp only
    cases hout : (l.ticket t).outcome with
    | none => exact Standing.unchanged (.awaits hheld hawaited h hr hw)
    | some outcome =>
      dsimp only
      generalize hend : (endStream change.call change.term outcome).run p = result
      obtain ⟨answer, q⟩ := result
      have haside := endStream_aside hend
      obtain ⟨m, hq, hm, hrq, hpoised⟩ := hw.ended h hr hout hend
      exact carried_of_goOn ⟨haside.gentle, hq.within⟩ hq hm haside.steady.tickets hpoised
        fun _ => hrq

/-- Others use the stream, and set what processors are built from. -/
theorem Standing.surround (h : p.Standing) {s : Surroundings} (use : StreamUse)
    (hs : s.stream = p.stream.map use.on) : p.Carried [] (p.surround s) := by
  have hparts : ∀ {opening l}, p.Rigged opening l →
      ((p.custody opening).inHand.isSome → (use.on l).stream.state = .opened) →
      (p.surround s).Rigged opening (use.on l) := by
    intro opening l hl hstate
    refine ⟨?_, ?_, hl.tracked, hstate⟩
    · obtain ⟨listener, hsteps⟩ := hl.steps
      exact ⟨listener, by rw [Partition.surround, hsteps]; rfl⟩
    · show s.stream = _
      rw [hs, hl.stream]
      rfl
  refine Standing.carried ?_ (.inr ⟨rfl, fun n => ⟨rfl, rfl⟩⟩) fun t hnone hok => ?_
  · cases h with
    | idle hheld h hl hr =>
      obtain ⟨hrest, hstate⟩ := hl.use use
      exact .idle hheld (hparts h fun hhand => hstate.trans (h.sheltered hhand)) hrest hr
    | opens hheld hawaited hlast h hl ht =>
      obtain ⟨hrest, hstate⟩ := hl.use use
      exact .opens hheld hawaited hlast (hparts h fun hhand => hstate.trans (h.sheltered hhand))
        hrest ht
    | @awaits l change t hheld hawaited h hr hw =>
      generalize hrest : change.rest = rest at hw
      cases hw with
      | closing ht hp hl =>
        refine .awaits hheld hawaited (hparts h fun hhand => ?_) hr
          (hrest ▸ .closing ht hp (hl.use use).1)
        rw [Custody.inHand, show (p.custody none).processor = none from hp] at hhand
        cases hhand
      | opening ht hl =>
        obtain ⟨hbound, hopened⟩ := hl.use use
        exact .awaits hheld hawaited (hparts h fun hhand => hopened rfl (h.sheltered hhand)) hr
          (hrest ▸ .opening ht hbound)
  · have hsame : (p.ticket t).outcome = some (.ok ()) := hok
    rw [hnone] at hsame
    cases hsame

theorem Standing.carryOut (h : p.Standing) (deed : Deed) :
    p.Carried (p.passed deed) (p.carryOut deed) := by
  cases deed with
  | request term target => exact h.request term target
  | letGo opened => exact h.letGo opened
  | resume => exact h.resume
  | equip shouldProcess health plan =>
    refine h.surround (.touch (fun s => s) fun _ => rfl) ?_
    show p.stream = _
    cases p.stream <;> rfl
  | useStream use => exact h.surround use rfl

/-! ## Any deeds -/

theorem course_eq (p : Partition) (deeds : List Deed) :
    ∃ states, p.course deeds = p :: states := by
  cases deeds with
  | nil => exact ⟨[], rfl⟩
  | cons deed rest => exact ⟨_, rfl⟩

theorem getLast?_course (p : Partition) (deeds : List Deed) :
    (p.course deeds).getLast? = some (p.carriedOut deeds) := by
  induction deeds generalizing p with
  | nil => rfl
  | cons deed rest ih =>
    obtain ⟨states, hstates⟩ := (p.carryOut deed).course_eq rest
    have hlast := ih (p.carryOut deed)
    rw [course, List.getLast?_append, hlast]
    rfl

/-- Deeds leave the partition standing, and all states from the first on follow one another. -/
theorem Standing.course (h : p.Standing) (deeds : List Deed) :
    (p.carriedOut deeds).Standing ∧ (p.course deeds).IsChain Follows := by
  induction deeds generalizing p with
  | nil => exact ⟨h, .singleton p⟩
  | cons deed rest ih =>
    have hcarried := h.carryOut deed
    obtain ⟨hstanding, hchain⟩ := ih hcarried.standing
    obtain ⟨states, hstates⟩ := (p.carryOut deed).course_eq rest
    refine ⟨hstanding, ?_⟩
    rw [hstates] at hchain
    rw [Partition.course, hstates]
    have hjoined : ((p :: p.passed deed) ++ [p.carryOut deed] ++ states).IsChain Follows :=
      hcarried.chain.append_overlap hchain (by simp)
    simpa using hjoined

theorem within_of_follows {states : List Partition} (hp : p.Within)
    (h : (p :: states).IsChain Follows) : ∀ r ∈ p :: states, r.Within := by
  induction states generalizing p with
  | nil => simpa using hp
  | cons next rest ih =>
    rw [List.isChain_cons_cons] at h
    intro r hr
    rcases List.mem_cons.1 hr with rfl | hr
    · exact hp
    · exact ih h.1.2 h.2 r hr

/-- A processor never outlives its stream, in all states that these deeds lead through. -/
structure WithinStream (p : Partition) (deeds : List Deed) : Prop where
  /-- Also within a change: while the stream is not open, every processor is closed. -/
  always : ∀ r ∈ p.course deeds, r.Within
  /-- From state to state: the stream stops being open only after every processor was closed. -/
  order : (p.course deeds).IsChain Guarded
  reached : (p.course deeds).getLast? = some (p.carriedOut deeds)
  /-- Between changes a processor that is held has an open stream and an active role. -/
  between : (p.carriedOut deeds).held = none → (p.carriedOut deeds).processor.isSome = true →
    (p.carriedOut deeds).streamState = some .opened ∧
      ∃ role, (p.carriedOut deeds).role = some role ∧ role.isActive = true
  /-- A change to the inactive role that succeeds leaves no processor and a closed stream. -/
  inactive : ∀ deed t, ((p.carriedOut deeds).ticket t).outcome = none →
    (((p.carriedOut deeds).carryOut deed).ticket t).outcome = some (.ok ()) →
    ((p.carriedOut deeds).carryOut deed).role = some .inactive →
    ((p.carriedOut deeds).carryOut deed).processor = none ∧
      ((p.carriedOut deeds).carryOut deed).streamState = some .closed

theorem standing_rigged (id : Nat) (s : LogStream) : (rigged id s).Standing := by
  have hfresh : (rigged id s).Fresh := ⟨rfl, rfl, rfl, rfl⟩
  refine .idle (l := { stream := s }) rfl ⟨⟨none, rfl⟩, rfl, hfresh.tracked, ?_⟩
    ⟨Lifecycle.steered_start s, rfl⟩ (.of_none rfl)
  intro hhand
  cases hhand

/-- Whatever roles are asked for, whichever calls fail or wait, and however others use the stream
that only these changes open and close: no processor outlives it. -/
theorem processor_within_stream (id : Nat) (s : LogStream) (deeds : List Deed) :
    (rigged id s).WithinStream deeds := by
  have hstart := standing_rigged id s
  obtain ⟨hstanding, hchain⟩ := hstart.course deeds
  obtain ⟨states, hstates⟩ := (rigged id s).course_eq deeds
  exact {
    always := by
      rw [hstates] at hchain ⊢
      exact within_of_follows hstart.within hchain
    order := hchain.imp fun _ _ hfollows => hfollows.1.guards hfollows.2
    reached := getLast?_course _ deeds
    between := by
      intro hidle hsome
      cases hstanding with
      | idle hheld h hl hr => exact ⟨h.streamState.trans (congrArg some (h.opened hsome)), hr hsome⟩
      | opens hheld => simp [hidle] at hheld
      | awaits hheld => simp [hidle] at hheld
    inactive := fun deed t hnone hok => (hstanding.carryOut deed).stilled t hnone hok }

end PartitionLog.Partition
