import PartitionLog.Proofs.RoleChanges

/-!
# One change of role at a time

A `Transition` is a partition together with the change of role that is being carried out. `proceed`
takes the next step of the change, which may be a call, the recording of role and term, or the end of
its handle; between any two of these others may ask for a change, or change what the steps work on.
Rejections aside, what can be seen is one change after the other: each makes its planned calls in
order, up to the first that fails, and only one without a failure is recorded (`one_at_a_time`). Where
nobody comes in between, a request comes to what `Partition.requestRole` does at once
(`proceed_request`).
-/

namespace PartitionLog

open PartitionLog.Partition

/-- How far a change of role has come. -/
inductive Pace where
  /-- These calls are left. -/
  | calling (left : List StepCall)
  /-- In a call that waits. -/
  | waiting (call : StepCall) (awaited : Awaited) (left : List StepCall)
  /-- All is done but the end of the handle. -/
  | ended (outcome : Except LogError Unit)

/-- A call returned, and these are left. -/
def Pace.following (left : List StepCall) : Except LogError Unit → Pace
  | .ok () => .calling left
  | .error e => .ended (.error e)

/-- A change that was accepted and whose handle is not done. -/
structure RoleChange where
  ticket : Nat
  term : Nat
  target : Role
  pace : Pace

/-- What can be seen of changes, each named by the ticket of its handle. -/
inductive ChangeEvent where
  | accepted (ticket term : Nat) (target : Role)
  | rejected (ticket : Nat)
  | called (ticket : Nat) (call : StepCall)
  | returned (ticket : Nat) (call : StepCall) (outcome : Except LogError Unit)
  | recorded (ticket term : Nat) (target : Role)
  | finished (ticket : Nat) (outcome : Except LogError Unit)

namespace ChangeEvent

def isRejection : ChangeEvent → Bool
  | rejected _ => true
  | _ => false

/-- Role and term after an event. -/
def record (known : Option Role × Nat) : ChangeEvent → Option Role × Nat
  | recorded _ term target => (some target, term)
  | _ => known

theorem record_rejection {event : ChangeEvent} (h : event.isRejection = true)
    (known : Option Role × Nat) : record known event = known := by
  cases event with
  | recorded => simp [isRejection] at h
  | _ => rfl

theorem record_rejections {events : List ChangeEvent}
    (h : ∀ event ∈ events, event.isRejection = true) (known : Option Role × Nat) :
    events.foldl record known = known := by
  induction events with
  | nil => rfl
  | cons event rest ih =>
    rw [List.foldl_cons, record_rejection (h event List.mem_cons_self)]
    exact ih fun other hmem => h other (List.mem_cons_of_mem _ hmem)

end ChangeEvent

structure Transition where
  partition : Partition
  /-- Ticket of the change that was accepted last. -/
  inFlight : Option Nat := none
  change : Option RoleChange := none
  trace : List ChangeEvent := []

namespace Transition

def see (t : Transition) (events : List ChangeEvent) : Transition :=
  { t with trace := t.trace ++ events }

/-- Whether the handle of the last change is done. -/
def isFree (t : Transition) : Bool :=
  match t.inFlight with
  | none => true
  | some ticket => (t.partition.ticket ticket).isDone

/-- Ask for a change; it is accepted if the one before it is done. -/
def request (term : Nat) (target : Role) (t : Transition) : Transition :=
  if t.isFree then
    let (ticket, p) := t.partition.issue .pending
    { partition := p
      inFlight := some ticket
      change := some ⟨ticket, term, target, .calling (plannedCalls p.steps.length)⟩
      trace := t.trace ++ [.accepted ticket term target] }
  else
    let (ticket, p) := t.partition.issue
      (.finished (.error (.transitionInProgress t.partition.id target.text)))
    { t with partition := p }.see [.rejected ticket]

/-- A call returned; these are left. -/
def goOn (t : Transition) (c : RoleChange) (call : StepCall) (left : List StepCall)
    (result : Except LogError Unit × Partition) : Transition :=
  { t with
    partition := result.2
    change := some { c with pace := .following left result.1 } }.see
      [.returned c.ticket call result.1]

/-- The next step of the change; nothing happens if there is none, or if it waits. -/
def proceed (t : Transition) : Transition :=
  match t.change with
  | none => t
  | some c =>
    match c.pace with
    | .calling (call :: left) =>
      match callStep c.term c.target call t.partition with
      | (.done outcome, p) => (t.see [.called c.ticket call]).goOn c call left (outcome, p)
      | (.held awaited, p) =>
        { t with
          partition := { p with held := some ⟨c.ticket, c.term, c.target, call, awaited, left⟩ }
          change := some { c with pace := .waiting call awaited left } }.see [.called c.ticket call]
    | .calling [] =>
      { t with
        partition := { t.partition with role := some c.target, term := c.term }
        change := some { c with pace := .ended (.ok ()) } }.see [.recorded c.ticket c.term c.target]
    | .waiting _ _ _ => t
    | .ended outcome =>
      { t with
        partition := { t.partition with
          held := none
          tickets := t.partition.tickets.modify c.ticket fun done => (done.finish outcome).2 }
        change := none }.see [.finished c.ticket outcome]

/-- The open of a processor ended; the call that waits for it returns. -/
def letGo (opened : Except LogError Unit) (t : Transition) : Transition :=
  match t.change with
  | some ⟨ticket, term, target, .waiting call (.processor processor) left⟩ =>
    t.goOn ⟨ticket, term, target, .waiting call (.processor processor) left⟩ call left
      ((endInstall term target processor opened).run t.partition)
  | _ => t

/-- The call that waits for the stream returns, if what it waits for is carried out. -/
def resume (t : Transition) : Transition :=
  match t.change, t.partition.stream with
  | some ⟨ticket, term, target, .waiting call (.stream awaited) left⟩, some l =>
    match (l.ticket awaited).outcome with
    | none => t
    | some outcome =>
      t.goOn ⟨ticket, term, target, .waiting call (.stream awaited) left⟩ call left
        ((endStream call term outcome).run t.partition)
  | _, _ => t

/-- What is done next, and by whom. -/
inductive Act where
  | request (term : Nat) (target : Role)
  | proceed
  | letGo (opened : Except LogError Unit)
  | resume
  /-- Others, or a call in a step of theirs, do anything but touch role, term and handles. -/
  | others (f : Partition → Partition) (h : ∀ p : Partition, p.Steady (f p))

def act (t : Transition) : Act → Transition
  | .request term target => t.request term target
  | .proceed => t.proceed
  | .letGo opened => t.letGo opened
  | .resume => t.resume
  | .others f _ => { t with partition := f t.partition }

def after (t : Transition) (acts : List Act) : Transition := acts.foldl act t

/-- No change was asked for yet. -/
def start (p : Partition) : Transition := { partition := p }

end Transition

/-! ## What changes look like -/

/-- Calls that all return well. -/
def smooth (ticket : Nat) (calls : List StepCall) : List ChangeEvent :=
  calls.flatMap fun call => [.called ticket call, .returned ticket call (.ok ())]

theorem smooth_append (ticket : Nat) (calls more : List StepCall) :
    smooth ticket (calls ++ more) = smooth ticket calls ++ smooth ticket more :=
  List.flatMap_append

/-- A change whose handle is done. -/
structure PastChange where
  ticket : Nat
  term : Nat
  target : Role
  /-- The calls that returned well. -/
  made : List StepCall
  /-- The call that failed. -/
  failure : Option (StepCall × LogError)

namespace PastChange

def outcome (c : PastChange) : Except LogError Unit :=
  match c.failure with
  | none => .ok ()
  | some (_, e) => .error e

/-- The calls of the change, in order. -/
def calls (c : PastChange) : List StepCall := c.made ++ (c.failure.map (·.1)).toList

def ending (c : PastChange) : List ChangeEvent :=
  match c.failure with
  | none => [.recorded c.ticket c.term c.target]
  | some (call, e) => [.called c.ticket call, .returned c.ticket call (.error e)]

def events (c : PastChange) : List ChangeEvent :=
  .accepted c.ticket c.term c.target :: smooth c.ticket c.made ++ c.ending
    ++ [.finished c.ticket c.outcome]

/-- The calls are the planned ones, all of them unless the last one failed. -/
structure Lawful (count : Nat) (c : PastChange) : Prop where
  planned : c.calls <+: plannedCalls count
  all : c.failure = none → c.calls = plannedCalls count

end PastChange

/-- What there is to see of a change that goes on. -/
def RoleChange.Shows (count : Nat) (c : RoleChange) (events : List ChangeEvent) : Prop :=
  match c.pace with
  | .calling left => ∃ made, plannedCalls count = made ++ left ∧
      events = .accepted c.ticket c.term c.target :: smooth c.ticket made
  | .waiting call _ left => ∃ made, plannedCalls count = made ++ call :: left ∧
      events = .accepted c.ticket c.term c.target :: smooth c.ticket made ++ [.called c.ticket call]
  | .ended outcome => ∃ past : PastChange, past.Lawful count ∧ past.ticket = c.ticket ∧
      past.outcome = outcome ∧ past.events = events ++ [.finished c.ticket outcome]

/-- A call that returns is one more that was made, or the one that failed. -/
theorem RoleChange.shows_returned {count ticket term : Nat} {target : Role}
    {made left : List StepCall} {call : StepCall}
    (hplanned : plannedCalls count = made ++ call :: left) (outcome : Except LogError Unit) :
    RoleChange.Shows count ⟨ticket, term, target, .following left outcome⟩
      (.accepted ticket term target :: smooth ticket made
        ++ [.called ticket call, .returned ticket call outcome]) := by
  cases outcome with
  | ok =>
    refine ⟨made ++ [call], by rw [hplanned, List.append_assoc]; rfl, ?_⟩
    rw [smooth_append]
    rfl
  | error e =>
    refine ⟨⟨ticket, term, target, made, some (call, e)⟩, ⟨⟨left, ?_⟩, ?_⟩, rfl, rfl, rfl⟩
    · rw [hplanned]
      simp [PastChange.calls]
    · intro hnone
      simp at hnone

namespace Transition

/-- From `p` on, with these changes over and this to see of the one that goes on. -/
structure Serial (p : Partition) (t : Transition) (past : List PastChange)
    (now : List ChangeEvent) : Prop where
  trace : t.trace.filter (!·.isRejection) = past.flatMap PastChange.events ++ now
  lawful : ∀ c ∈ past, c.Lawful p.steps.length
  handles : ∀ c ∈ past, t.partition.tickets[c.ticket]? = some (.finished c.outcome)
  ordered : past.Pairwise (·.ticket < ·.ticket)
  known : (t.partition.role, t.partition.term)
    = t.trace.foldl ChangeEvent.record (p.role, p.term)
  count : t.partition.steps.length = p.steps.length
  idle : t.change = none → now = [] ∧ t.isFree = true
  busy : ∀ c, t.change = some c → c.Shows p.steps.length now ∧ t.inFlight = some c.ticket ∧
    t.partition.tickets[c.ticket]? = some .pending ∧ ∀ d ∈ past, d.ticket < c.ticket

variable {p q : Partition} {t : Transition} {past : List PastChange} {now : List ChangeEvent}
  {c : RoleChange}

theorem serial_start (p : Partition) : (start p).Serial p [] [] where
  trace := rfl
  lawful := by simp
  handles := by simp
  ordered := .nil
  known := rfl
  count := rfl
  idle _ := ⟨rfl, rfl⟩
  busy := by simp [start]

/-- While a change goes on its handle is not done. -/
theorem Serial.free_iff (h : t.Serial p past now) : t.isFree = true ↔ t.change = none := by
  refine ⟨fun hfree => ?_, fun hidle => (h.idle hidle).2⟩
  cases hchange : t.change with
  | none => rfl
  | some c =>
    obtain ⟨-, hflight, hpending, -⟩ := h.busy c hchange
    unfold isFree Partition.ticket at hfree
    rw [hflight] at hfree
    simp [List.getD_eq_getElem?_getD, hpending, Completion.isDone, Completion.pending] at hfree

/-- The change goes on with these events. -/
theorem Serial.goes_on (h : t.Serial p past now) (hchange : t.change = some c)
    {after : RoleChange} {more : List ChangeEvent}
    (hshows : after.Shows p.steps.length (now ++ more)) (hticket : after.ticket = c.ticket)
    (hmore : more.filter (!·.isRejection) = more) (htickets : q.tickets = t.partition.tickets)
    (hcount : q.steps.length = t.partition.steps.length)
    (hknown : (q.role, q.term)
      = more.foldl ChangeEvent.record (t.partition.role, t.partition.term)) :
    Serial p ⟨q, t.inFlight, some after, t.trace ++ more⟩ past (now ++ more) where
  trace := by rw [List.filter_append, h.trace, hmore, List.append_assoc]
  lawful := h.lawful
  handles := by
    rw [htickets]
    exact h.handles
  ordered := h.ordered
  known := by rw [hknown, h.known, List.foldl_append]
  count := hcount.trans h.count
  idle hidle := by simp at hidle
  busy c' hc' := by
    obtain ⟨-, hflight, hpending, hlater⟩ := h.busy c hchange
    simp only [Option.some.injEq] at hc'
    subst hc'
    rw [hticket, htickets]
    exact ⟨hshows, hflight, hpending, hlater⟩

/-- Tickets that are issued later leave a done handle done. -/
theorem isFree_of_isFree (hfree : t.isFree = true) {more : List (Completion Unit)}
    (htickets : q.tickets = t.partition.tickets ++ more) {change : Option RoleChange}
    {trace : List ChangeEvent} : isFree ⟨q, t.inFlight, change, trace⟩ = true := by
  unfold isFree at hfree ⊢
  dsimp only
  split
  · rfl
  · next n hflight =>
    rw [hflight] at hfree
    dsimp only at hfree
    unfold Partition.ticket at hfree ⊢
    rw [htickets, List.getD_eq_getElem?_getD]
    rw [List.getD_eq_getElem?_getD] at hfree
    cases hn : t.partition.tickets[n]? with
    | none => simp [hn, Completion.isDone, Completion.pending] at hfree
    | some done =>
      rw [List.getElem?_append_left (List.getElem?_eq_some_iff.1 hn).1, hn]
      rwa [hn] at hfree

/-- What is done elsewhere leaves the change as it is. -/
theorem Serial.elsewhere (h : t.Serial p past now) {more : List (Completion Unit)}
    {events : List ChangeEvent} (htickets : q.tickets = t.partition.tickets ++ more)
    (hrole : q.role = t.partition.role) (hterm : q.term = t.partition.term)
    (hcount : q.steps.length = t.partition.steps.length)
    (hevents : ∀ event ∈ events, event.isRejection = true) :
    Serial p ⟨q, t.inFlight, t.change, t.trace ++ events⟩ past now where
  trace := by
    have hnone : events.filter (!·.isRejection) = [] :=
      List.filter_eq_nil_iff.2 fun event hmem => by simp [hevents event hmem]
    rw [List.filter_append, hnone, List.append_nil, h.trace]
  lawful := h.lawful
  handles d hd := by
    have hdone := h.handles d hd
    rw [htickets, List.getElem?_append_left (List.getElem?_eq_some_iff.1 hdone).1, hdone]
  ordered := h.ordered
  known := by
    rw [List.foldl_append, ← h.known, ← hrole, ← hterm, ChangeEvent.record_rejections hevents]
  count := hcount.trans h.count
  idle hidle := by
    obtain ⟨hnow, hfree⟩ := h.idle hidle
    exact ⟨hnow, isFree_of_isFree hfree htickets⟩
  busy c hc := by
    obtain ⟨hshows, hflight, hpending, hlater⟩ := h.busy c hc
    refine ⟨hshows, hflight, ?_, hlater⟩
    rw [htickets, List.getElem?_append_left (List.getElem?_eq_some_iff.1 hpending).1, hpending]

/-! ## What each step keeps -/

theorem Serial.request (h : t.Serial p past now) (term : Nat) (target : Role) :
    ∃ now, (t.request term target).Serial p past now := by
  unfold Transition.request
  split
  · next hfree =>
    obtain ⟨rfl, -⟩ := h.idle (h.free_iff.1 hfree)
    refine ⟨[.accepted t.partition.tickets.length term target], ?_⟩
    have hearlier : ∀ d ∈ past, d.ticket < t.partition.tickets.length := fun d hd =>
      (List.getElem?_eq_some_iff.1 (h.handles d hd)).1
    exact {
      trace := by
        rw [List.filter_append, h.trace, List.append_nil]
        rfl
      lawful := h.lawful
      handles := fun d hd => by
        rw [issue, List.getElem?_append_left (hearlier d hd)]
        exact h.handles d hd
      ordered := h.ordered
      known := by
        rw [List.foldl_append, ← h.known]
        rfl
      count := h.count
      idle := fun hidle => by simp at hidle
      busy := fun c hc => by
        simp only [Option.some.injEq] at hc
        subst hc
        exact ⟨⟨[], by rw [issue, h.count]; rfl, rfl⟩, rfl, by simp [issue], hearlier⟩ }
  · exact ⟨now, h.elsewhere rfl rfl rfl rfl (by simp [ChangeEvent.isRejection])⟩

/-- The handle is done, and the change is over. -/
theorem Serial.finish (h : t.Serial p past now) {ticket term : Nat} {target : Role}
    {outcome : Except LogError Unit} (hchange : t.change = some ⟨ticket, term, target, .ended outcome⟩)
    (held : Option HeldChange) : ∃ d, Serial p
      ⟨{ t.partition with
          held := held
          tickets := t.partition.tickets.modify ticket fun done => (done.finish outcome).2 },
        t.inFlight, none, t.trace ++ [.finished ticket outcome]⟩ (past ++ [d]) [] := by
  obtain ⟨⟨d, hlawful, hticket, houtcome, hevents⟩, hflight, hpending, hlater⟩ := h.busy _ hchange
  dsimp only at hticket houtcome hevents hpending hlater hflight
  have hdone : (t.partition.tickets.modify ticket fun done => (done.finish outcome).2)[ticket]?
      = some (.finished outcome) := by
    rw [List.getElem?_modify_eq, hpending]
    rfl
  refine ⟨d, ?_, ?_, ?_, ?_, ?_, h.count, fun _ => ⟨rfl, ?_⟩, by simp⟩
  · rw [List.filter_append, h.trace, List.flatMap_append, List.append_assoc, List.append_nil]
    simp [hevents, ChangeEvent.isRejection]
  · rintro e he
    rcases List.mem_append.1 he with he | he
    · exact h.lawful e he
    · rwa [List.mem_singleton.1 he]
  · rintro e he
    rcases List.mem_append.1 he with he | he
    · dsimp only
      simp [Nat.ne_of_gt (hlater e he), h.handles e he]
    · rw [List.mem_singleton.1 he, hticket, houtcome]
      exact hdone
  · refine List.pairwise_append.2 ⟨h.ordered, List.pairwise_singleton .., fun e he f hf => ?_⟩
    rw [List.mem_singleton.1 hf, hticket]
    exact hlater e he
  · dsimp only
    rw [List.foldl_append, ← h.known]
    rfl
  · unfold isFree Partition.ticket
    dsimp only
    rw [hflight]
    dsimp only
    rw [List.getD_eq_getElem?_getD, hdone]
    rfl

theorem Serial.proceed (h : t.Serial p past now) : ∃ past now, t.proceed.Serial p past now := by
  unfold Transition.proceed
  split
  · exact ⟨past, now, h⟩
  · next c hchange =>
    obtain ⟨hshows, -⟩ := h.busy c hchange
    obtain ⟨ticket, term, target, pace⟩ := c
    dsimp only
    cases pace with
    | calling left =>
      obtain ⟨made, hplanned, rfl⟩ := hshows
      cases left with
      | nil =>
        rw [List.append_nil] at hplanned
        have hlawful : PastChange.Lawful p.steps.length ⟨ticket, term, target, made, none⟩ :=
          ⟨by simp [PastChange.calls, hplanned], fun _ => by simp [PastChange.calls, hplanned]⟩
        have hshows : RoleChange.Shows p.steps.length ⟨ticket, term, target, .ended (.ok ())⟩
            (.accepted ticket term target :: smooth ticket made ++ [.recorded ticket term target]) :=
          ⟨_, hlawful, rfl, rfl, rfl⟩
        exact ⟨past, _, h.goes_on hchange hshows rfl rfl rfl rfl rfl⟩
      | cons call left =>
        dsimp only
        split
        · next outcome q hcall =>
          have hsteady := (callStep_turned hcall).steady
          have hgoes := h.goes_on hchange (RoleChange.shows_returned hplanned outcome) rfl rfl
            hsteady.tickets hsteady.count (by rw [hsteady.role, hsteady.term]; rfl)
          refine ⟨past, .accepted ticket term target :: smooth ticket made
            ++ [.called ticket call, .returned ticket call outcome], ?_⟩
          unfold goOn see
          rw [List.append_assoc]
          exact hgoes
        · next awaited q hcall =>
          have hsteady := (callStep_turned hcall).steady
          have hshows : RoleChange.Shows p.steps.length
              ⟨ticket, term, target, .waiting call awaited left⟩
              (.accepted ticket term target :: smooth ticket made ++ [.called ticket call]) :=
            ⟨made, hplanned, rfl⟩
          exact ⟨past, _, h.goes_on hchange hshows rfl rfl hsteady.tickets hsteady.count
            (by rw [hsteady.role, hsteady.term]; rfl)⟩
    | waiting call awaited left => exact ⟨past, now, h⟩
    | ended outcome =>
      obtain ⟨d, hd⟩ := h.finish hchange none
      exact ⟨_, _, hd⟩

/-- The call in which the change waits returns. -/
theorem Serial.returns (h : t.Serial p past now) {ticket term : Nat} {target : Role}
    {call : StepCall} {awaited : Awaited} {left : List StepCall}
    (hchange : t.change = some ⟨ticket, term, target, .waiting call awaited left⟩)
    {outcome : Except LogError Unit} (hsteady : t.partition.Steady q) :
    ∃ now, (t.goOn ⟨ticket, term, target, .waiting call awaited left⟩ call left
      (outcome, q)).Serial p past now := by
  obtain ⟨⟨made, hplanned, rfl⟩, -⟩ := h.busy _ hchange
  have hshows : RoleChange.Shows p.steps.length ⟨ticket, term, target, .following left outcome⟩
      (.accepted ticket term target :: smooth ticket made ++ [.called ticket call]
        ++ [.returned ticket call outcome]) := by
    rw [List.append_assoc]
    exact RoleChange.shows_returned hplanned outcome
  exact ⟨_, h.goes_on hchange hshows rfl rfl hsteady.tickets hsteady.count
    (by rw [hsteady.role, hsteady.term]; rfl)⟩

theorem endInstall_steady (p : Partition) (term : Nat) (target : Role) (pr : Processor)
    (opened : Except LogError Unit) : p.Steady ((endInstall term target pr opened).run p).2 := by
  cases opened with
  | ok => exact .of_steps rfl rfl rfl rfl rfl
  | error e => exact .of_steps rfl rfl rfl rfl rfl

theorem Serial.letGo (h : t.Serial p past now) (opened : Except LogError Unit) :
    ∃ now, (t.letGo opened).Serial p past now := by
  unfold Transition.letGo
  split
  · next hchange => exact h.returns hchange (endInstall_steady ..)
  · exact ⟨now, h⟩

theorem Serial.resume (h : t.Serial p past now) : ∃ now, t.resume.Serial p past now := by
  unfold Transition.resume
  split
  · next hchange _ =>
    split
    · exact ⟨now, h⟩
    · exact h.returns hchange (endStream_aside rfl).steady
  · exact ⟨now, h⟩

theorem Serial.act (h : t.Serial p past now) (act : Act) :
    ∃ past now, (t.act act).Serial p past now := by
  cases act with
  | request term target => exact ⟨past, h.request term target⟩
  | proceed => exact h.proceed
  | letGo opened => exact ⟨past, h.letGo opened⟩
  | resume => exact ⟨past, h.resume⟩
  | others f hf =>
    have hsteady := hf t.partition
    have hsame : Serial p ⟨f t.partition, t.inFlight, t.change, t.trace ++ []⟩ past now :=
      h.elsewhere (hsteady.tickets.trans (List.append_nil _).symm) hsteady.role hsteady.term
        hsteady.count (by simp)
    rw [List.append_nil] at hsame
    exact ⟨past, now, hsame⟩

theorem Serial.after (h : t.Serial p past now) (acts : List Act) :
    ∃ past now, (t.after acts).Serial p past now := by
  induction acts generalizing t past now with
  | nil => exact ⟨past, now, h⟩
  | cons act rest ih =>
    obtain ⟨past, now, hnext⟩ := h.act act
    exact ih hnext

/-! ## Changes at once -/

/-- A partition knows the call in which its change waits. -/
structure Matched (t : Transition) : Prop where
  idle : t.change = none → t.partition.held = none
  waiting : ∀ {ticket term target call awaited left},
    t.change = some ⟨ticket, term, target, .waiting call awaited left⟩ →
      t.partition.held = some ⟨ticket, term, target, call, awaited, left⟩

theorem Matched.goOn (t : Transition) (c : RoleChange) (call : StepCall) (left : List StepCall)
    (result : Except LogError Unit × Partition) : (t.goOn c call left result).Matched := by
  obtain ⟨outcome, q⟩ := result
  cases outcome with
  | ok => exact ⟨fun hidle => by simp [Transition.goOn, see] at hidle,
      fun hwaits => by simp [Transition.goOn, see, Pace.following] at hwaits⟩
  | error e => exact ⟨fun hidle => by simp [Transition.goOn, see] at hidle,
      fun hwaits => by simp [Transition.goOn, see, Pace.following] at hwaits⟩

theorem Matched.proceed (h : t.Matched) : t.proceed.Matched := by
  unfold Transition.proceed
  split
  · exact h
  · next c hchange =>
    obtain ⟨ticket, term, target, pace⟩ := c
    dsimp only
    cases pace with
    | calling left =>
      cases left with
      | nil => exact ⟨fun hidle => by simp [see] at hidle, fun hwaits => by simp [see] at hwaits⟩
      | cons call left =>
        dsimp only
        split
        · exact .goOn ..
        · refine ⟨fun hidle => by simp [see] at hidle, fun hwaits => ?_⟩
          simp only [see, Option.some.injEq, RoleChange.mk.injEq, Pace.waiting.injEq] at hwaits
          obtain ⟨rfl, rfl, rfl, rfl, rfl, rfl⟩ := hwaits
          rfl
    | waiting call awaited left => exact h
    | ended outcome => exact ⟨fun _ => rfl, fun hwaits => by simp [see] at hwaits⟩

theorem Matched.act (h : t.Matched) (act : Act) : (t.act act).Matched := by
  cases act with
  | request term target =>
    unfold Transition.act Transition.request
    dsimp only
    split
    · exact ⟨fun hidle => by simp at hidle, fun hwaits => by simp at hwaits⟩
    · exact ⟨h.idle, h.waiting⟩
  | proceed => exact h.proceed
  | letGo opened =>
    unfold Transition.act Transition.letGo
    dsimp only
    split
    · exact .goOn ..
    · exact h
  | resume =>
    unfold Transition.act Transition.resume
    dsimp only
    split
    · split
      · exact h
      · exact .goOn ..
    · exact h
  | others f hf =>
    have hheld : (f t.partition).held = t.partition.held := (hf t.partition).held
    exact ⟨fun hidle => hheld.trans (h.idle hidle), fun hwaits => hheld.trans (h.waiting hwaits)⟩

theorem Matched.after (h : t.Matched) (acts : List Act) : (t.after acts).Matched := by
  induction acts generalizing t with
  | nil => exact h
  | cons act rest ih => exact ih (h.act act)

/-- The end of the handle. -/
theorem proceed_ended {ticket term : Nat} {target : Role} {outcome : Except LogError Unit}
    (hchange : t.change = some ⟨ticket, term, target, .ended outcome⟩) :
    t.proceed.partition = conclude ticket term target (.done outcome, t.partition) := by
  unfold proceed
  rw [hchange]
  rfl

/-- Step by step, a change makes its calls as it does at once. -/
theorem proceed_calling {ticket term : Nat} {target : Role} {calls : List StepCall}
    (hchange : t.change = some ⟨ticket, term, target, .calling calls⟩) :
    ∃ k, (t.after (List.replicate k .proceed)).partition
      = conclude ticket term target (makeCalls term target calls t.partition) := by
  induction calls generalizing t with
  | nil =>
    refine ⟨2, ?_⟩
    have hended : t.proceed.change = some ⟨ticket, term, target, .ended (.ok ())⟩ := by
      unfold proceed
      rw [hchange]
      rfl
    show t.proceed.proceed.partition = _
    rw [proceed_ended hended]
    unfold proceed
    rw [hchange]
    rfl
  | cons call rest ih =>
    generalize hcall : callStep term target call t.partition = result
    obtain ⟨outcome, q⟩ := result
    cases outcome with
    | done outcome =>
      have hnext : t.proceed = (t.see [.called ticket call]).goOn
          ⟨ticket, term, target, .calling (call :: rest)⟩ call rest (outcome, q) := by
        unfold proceed
        rw [hchange]
        dsimp only
        rw [hcall]
      cases outcome with
      | ok =>
        have hgoes : t.proceed.change = some ⟨ticket, term, target, .calling rest⟩ := by
          rw [hnext]
          rfl
        obtain ⟨k, hk⟩ := ih hgoes
        refine ⟨k + 1, ?_⟩
        rw [List.replicate_succ, makeCalls, hcall]
        show (t.proceed.after (List.replicate k .proceed)).partition = _
        rw [hk, hnext]
        rfl
      | error e =>
        have hended : t.proceed.change = some ⟨ticket, term, target, .ended (.error e)⟩ := by
          rw [hnext]
          rfl
        refine ⟨2, ?_⟩
        show t.proceed.proceed.partition = _
        rw [proceed_ended hended, makeCalls, hcall, hnext]
        rfl
    | held awaited =>
      refine ⟨1, ?_⟩
      show t.proceed.partition = _
      unfold proceed
      rw [hchange]
      dsimp only
      rw [makeCalls, hcall]
      rfl

/-- A call that waited returned; the change goes on as it does at once. -/
theorem proceed_goOn {ticket term : Nat} {target : Role} {call : StepCall} {awaited : Awaited}
    {left : List StepCall} (result : Except LogError Unit × Partition) :
    ∃ k, ((t.goOn ⟨ticket, term, target, .waiting call awaited left⟩ call left result).after
      (List.replicate k .proceed)).partition
        = Partition.goOn ⟨ticket, term, target, call, awaited, left⟩ result := by
  obtain ⟨outcome, q⟩ := result
  cases outcome with
  | ok => exact proceed_calling (t := t.goOn _ call left (.ok (), q)) rfl
  | error e => exact ⟨1, proceed_ended (t := t.goOn _ call left (.error e, q)) rfl⟩

/-- The act that begins what a move does. -/
def Act.ofMove : Move → Act
  | .request term target => .request term target
  | .letGo opened => .letGo opened
  | .resume => .resume
  | .surround s => .others (·.surround s) (·.surround_steady s)

/-- No change goes on, but for one that waits. -/
def AtRest (t : Transition) : Prop :=
  ∀ c, t.change = some c → ∃ call awaited left, c.pace = .waiting call awaited left

theorem proceed_request (hfree : t.isFree = true) (hheld : t.partition.held = none) (term : Nat)
    (target : Role) : ∃ k, ((t.request term target).after (List.replicate k .proceed)).partition
      = (t.partition.requestRole term target).2 := by
  rw [requestRole_idle hheld]
  unfold request
  rw [if_pos hfree]
  exact proceed_calling (t := ⟨(t.partition.issue .pending).2, _, _, _⟩) rfl

theorem request_busy (hbusy : t.isFree = false) (hheld : t.partition.held ≠ none) (term : Nat)
    (target : Role) :
    (t.request term target).partition = (t.partition.requestRole term target).2 := by
  rw [requestRole_busy hheld]
  unfold request
  rw [if_neg (by simp [hbusy])]
  rfl

/-- Where nobody comes in between, an act comes to what the partition does at once. -/
theorem Serial.comes_to (h : t.Serial p past now) (hm : t.Matched) (hrest : t.AtRest)
    (move : Move) : ∃ k, ((t.act (.ofMove move)).after (List.replicate k .proceed)).partition
      = t.partition.act move := by
  cases hchange : t.change with
  | none =>
    have hheld := hm.idle hchange
    cases move with
    | request term target => exact proceed_request (h.free_iff.2 hchange) hheld term target
    | letGo opened =>
      refine ⟨0, ?_⟩
      show (t.letGo opened).partition = t.partition.letGo opened
      unfold Transition.letGo Partition.letGo
      rw [hchange, hheld]
    | resume =>
      refine ⟨0, ?_⟩
      show t.resume.partition = t.partition.resume
      unfold Transition.resume Partition.resume
      rw [hchange, hheld]
    | surround s => exact ⟨0, rfl⟩
  | some c =>
    obtain ⟨ticket, term, target, pace⟩ := c
    obtain ⟨call, awaited, left, rfl⟩ := hrest _ hchange
    have hheld := hm.waiting hchange
    cases move with
    | request newTerm newTarget =>
      have hbusy : t.isFree = false := by
        rw [Bool.eq_false_iff, ne_eq, h.free_iff, hchange]
        simp
      exact ⟨0, request_busy hbusy (by simp [hheld]) newTerm newTarget⟩
    | letGo opened =>
      show ∃ k, ((t.letGo opened).after _).partition = t.partition.letGo opened
      unfold Transition.letGo Partition.letGo
      rw [hchange, hheld]
      cases awaited with
      | processor pr => exact proceed_goOn _
      | stream awaited => exact ⟨0, rfl⟩
    | resume =>
      show ∃ k, (t.resume.after _).partition = t.partition.resume
      unfold Transition.resume Partition.resume
      rw [hchange, hheld]
      cases awaited with
      | processor pr =>
        cases t.partition.stream with
        | none => exact ⟨0, rfl⟩
        | some l => exact ⟨0, rfl⟩
      | stream awaited =>
        cases t.partition.stream with
        | none => exact ⟨0, rfl⟩
        | some l =>
          dsimp only
          cases (l.ticket awaited).outcome with
          | none => exact ⟨0, rfl⟩
          | some outcome => exact proceed_goOn _
    | surround s => exact ⟨0, rfl⟩

/-! ## One at a time -/

/-- A request is accepted if the handle of the change before it is done, and then no change goes on;
otherwise it fails at once, and nothing else changes. -/
structure Admits (t : Transition) (term : Nat) (target : Role) : Prop where
  accepted : t.isFree = true → t.change = none ∧ t.request term target =
    { partition := { t.partition with tickets := t.partition.tickets ++ [.pending] }
      inFlight := some t.partition.tickets.length
      change := some ⟨t.partition.tickets.length, term, target,
        .calling (plannedCalls t.partition.steps.length)⟩
      trace := t.trace ++ [.accepted t.partition.tickets.length term target] }
  rejected : t.isFree = false → t.request term target =
    { t with
      partition := { t.partition with tickets := t.partition.tickets ++
        [.finished (.error (.transitionInProgress t.partition.id target.text))] }
      trace := t.trace ++ [.rejected t.partition.tickets.length] }

theorem Serial.admits (h : t.Serial p past now) (term : Nat) (target : Role) :
    t.Admits term target where
  accepted hfree := by
    refine ⟨h.free_iff.1 hfree, ?_⟩
    unfold Transition.request
    rw [if_pos hfree]
    rfl
  rejected hbusy := by
    unfold Transition.request
    rw [if_neg (by simp [hbusy])]
    rfl

/-- Whoever asks for changes, whenever, and whatever fails in them: they are carried out one after the
other, each with its planned calls up to the first that fails, and those without a failure are
recorded. -/
theorem one_at_a_time (p : Partition) (hidle : p.held = none) (acts : List Act) :
    (∃ past now, ((start p).after acts).Serial p past now) ∧
      (∀ term target, ((start p).after acts).Admits term target) ∧
      (((start p).after acts).AtRest → ∀ move, ∃ k,
        ((((start p).after acts).act (.ofMove move)).after (List.replicate k .proceed)).partition
          = ((start p).after acts).partition.act move) := by
  obtain ⟨past, now, hserial⟩ := (serial_start p).after acts
  have hmatched : (start p).Matched := ⟨fun _ => hidle, fun hwaits => by simp [start] at hwaits⟩
  exact ⟨⟨past, now, hserial⟩, hserial.admits, hserial.comes_to (hmatched.after acts)⟩

/-- Two recorders, the second of which fails to install. -/
def recorders : Partition where
  id := 1
  steps := [.recorder "first" false false, .recorder "second" false true]

/-- A request comes in while another is carried out, and one after it. -/
def crossing : List Act :=
  [.request 1 .follower, .proceed, .request 2 .leader] ++ List.replicate 4 .proceed
    ++ [.request 3 .inactive]

theorem one_at_a_time_crossing :
    recorders.held = none ∧ ((start recorders).after crossing).trace.length = 12 ∧
      ((start recorders).after crossing).partition.role = none ∧
      ∃ past now, ((start recorders).after crossing).Serial recorders past now :=
  ⟨rfl, by decide +kernel, by decide +kernel, (one_at_a_time recorders rfl crossing).1⟩

end Transition

end PartitionLog
