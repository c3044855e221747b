import PartitionLog.Proofs.RoleFit
import PartitionLog.Proofs.RoleReports

/-!
# Health follows the role

Whatever changes of role are asked for and whichever installs, opens and closes fail in them: after a
change to an active role a processor is held and reported as healthy, and after one to the inactive role
the stream is not tracked. The processor is tracked there just if the last install that ended had failed
(`health_follows_role`): a change that finds no processor has none to take its report back with, and
so leaves the report of a failed install (`health_outlives_role`).
-/

namespace PartitionLog.Partition

/-! ## Incidents -/

/-- The components that the steps of a partition report on. -/
def ownComponents (id : Nat) : List String := [processorComponent, s!"log-stream-{id}"]

/-- What comes to the partition `id` and to its health monitor. -/
inductive Incident (id : Nat) where
  | request (term : Nat) (target : Role)
  | letGo (opened : Except LogError Unit)
  | resume
  /-- Others set what processors are built from now on, and how. -/
  | equip (shouldProcess : Bool) (plan : Nat → Option ProcessorTraits)
  /-- Others report on components of theirs. -/
  | report (f : HealthMonitor → HealthMonitor)
    (h : ∀ m, ∀ component ∈ ownComponents id, (f m).status component = m.status component)
  /-- Others use the stream, with listeners that report on components of theirs at most. -/
  | useStream (f : Lifecycle → Lifecycle)
    (h : ∀ l, ∀ x ∈ (f l).stream.appender.listeners.known,
      x ∈ l.stream.appender.listeners.known ∨
        ∀ component ∈ ownComponents id, x.component ≠ some component)

variable {id : Nat}

def Incident.move? : Incident id → Option Move
  | .request term target => some (.request term target)
  | .letGo opened => some (.letGo opened)
  | .resume => some .resume
  | _ => none

def undergo (p : Partition) : Incident id → Partition
  | .request term target => p.act (.request term target)
  | .letGo opened => p.act (.letGo opened)
  | .resume => p.act .resume
  | .equip shouldProcess plan =>
    { p with shouldProcess := shouldProcess, factory := { p.factory with plan := plan } }
  | .report f _ => { p with health := f p.health }
  | .useStream f _ =>
    match p.stream with
    | none => p
    | some l => p.takeBack (f l)

def undergone (p : Partition) (incidents : List (Incident id)) : Partition :=
  incidents.foldl undergo p

/-- The change that an incident ends: its target, and its outcome as its ticket tells it. -/
def endedBy (p : Partition) (i : Incident id) : Option (Role × Except LogError Unit) :=
  i.move?.bind p.ended

/-- Whether the install of a processor ended on the way from `p` to `q`. -/
def installEnded (p q : Partition) : Bool :=
  (p.opening.isSome || decide (p.factory.attempts < q.factory.attempts)) && q.opening.isNone

/-- What is known of the last install after an incident, with what was known before. -/
def reported (p : Partition) (i : Incident id) (report : Option Health) : Option Health :=
  if p.installEnded (p.undergo i) then (p.endedBy i).bind fun ended => Health.ofInstall ended.2
  else report

/-- What is known, over incidents, of the last install that ended: why it failed, if it did. -/
def lastReport (p : Partition) (report : Option Health) : List (Incident id) → Option Health
  | [] => report
  | i :: rest => (p.undergo i).lastReport (p.reported i report) rest

/-! ## The calls of a change -/

variable {p q : Partition} {l : Lifecycle} {key : Option ListenerKey} {report : Option Health}
variable {base ticket term : Nat} {target : Role} {call : StepCall} {rest left : List StepCall}
variable {outcome : StepOutcome}

/-- What is known of the last install at the end of a change that began after `base` attempts. -/
def knownAfter (base : Nat) (report : Option Health) (q : Partition)
    (answer : Except LogError Unit) : Option Health :=
  if base < q.factory.attempts then Health.ofInstall answer else report

theorem knownAfter_of_same (h : q.factory.attempts = base) (answer : Except LogError Unit) :
    knownAfter base report q answer = report := by
  rw [knownAfter, if_neg (by omega)]

theorem knownAfter_of_next (h : q.factory.attempts = base + 1) (answer : Except LogError Unit) :
    knownAfter base report q answer = Health.ofInstall answer := by
  rw [knownAfter, if_pos (by omega)]

/-- What a change to `target` that began after `base` attempts has done when these calls are left. -/
inductive Reached (base : Nat) (report : Option Health) (target : Role) (p : Partition)
    (key : Option ListenerKey) : List StepCall → Prop where
  | fromStart (ha : p.factory.attempts = base) (hs : p.Staffed report) :
    Reached base report target p key
      [⟨.prepare, 1⟩, ⟨.prepare, 0⟩, ⟨.install, 0⟩, ⟨.install, 1⟩]
  | dismissed (ha : p.factory.attempts = base) (hs : p.Staffed report)
    (hp : target = .inactive → p.processor = none) :
    Reached base report target p key [⟨.prepare, 0⟩, ⟨.install, 0⟩, ⟨.install, 1⟩]
  | unwatched (ha : p.factory.attempts = base) (hs : p.Staffed report)
    (hp : target = .inactive → p.processor = none ∧ key = none) :
    Reached base report target p key [⟨.install, 0⟩, ⟨.install, 1⟩]
  | watched (ha : p.factory.attempts = base) (hs : p.Staffed report)
    (hp : target = .inactive → p.processor = none ∧ key = none)
    (hk : target ≠ .inactive → key.isSome = true) :
    Reached base report target p key [⟨.install, 1⟩]
  | finished (hs : p.Staffed (knownAfter base report p (.ok ())))
    (hp : target = .inactive → p.processor = none ∧ key = none ∧ p.factory.attempts = base)
    (hk : target ≠ .inactive → key.isSome = true ∧ p.processor.isSome = true) :
    Reached base report target p key []

/-- A change waits for the stream to close or to open, or for a processor to open. -/
inductive Suspended (p : Partition) (key : Option ListenerKey) : HeldChange → Prop where
  | closing (ticket term t : Nat) (hp : p.processor = none) (hk : key = none) :
    Suspended p key ⟨ticket, term, .inactive, ⟨.prepare, 0⟩, .stream t,
      [⟨.install, 0⟩, ⟨.install, 1⟩]⟩
  | opening (ticket term t : Nat) {role : Role} (hactive : role ≠ .inactive) :
    Suspended p key ⟨ticket, term, role, ⟨.install, 0⟩, .stream t, [⟨.install, 1⟩]⟩
  | installing (ticket term : Nat) {role : Role} (pr : Processor) (hactive : role ≠ .inactive)
    (hp : p.processor = none) (hk : key.isSome = true) :
    Suspended p key ⟨ticket, term, role, ⟨.install, 1⟩, .processor pr, []⟩

/-- How a call leaves the partition, with these calls left. -/
inductive Answered (id base : Nat) (report : Option Health) (target : Role) (call : StepCall)
    (rest : List StepCall) (q : Partition) : StepOutcome → Prop where
  | goesOn {m : Lifecycle} {key : Option ListenerKey} (hw : q.Watching id m key)
    (hr : Reached base report target q key rest) :
    Answered id base report target call rest q (.done (.ok ()))
  | fails {m : Lifecycle} {key : Option ListenerKey} (e : LogError) (hw : q.Watching id m key)
    (hs : q.Staffed (knownAfter base report q (.error e))) :
    Answered id base report target call rest q (.done (.error e))
  | awaits {m : Lifecycle} {key : Option ListenerKey} (awaited : Awaited) (hw : q.Watching id m key)
    (hs : q.Staffed report) (ha : awaited.opening = none → q.factory.attempts = base)
    (hheld : ∀ ticket term, Suspended q key ⟨ticket, term, target, call, awaited, rest⟩) :
    Answered id base report target call rest q (.held awaited)

theorem stream_of_opening {awaited : Awaited} (h : awaited.opening = none) :
    ∃ t, awaited = .stream t := by
  cases awaited with
  | processor pr => simp [Awaited.opening] at h
  | stream t => exact ⟨t, rfl⟩

theorem prepareProcessor_answered (hw : p.Watching id l key) (ha : p.factory.attempts = base)
    (hs : p.Staffed report) (hcall : callStep term target ⟨.prepare, 1⟩ p = (outcome, q)) :
    Answered id base report target ⟨.prepare, 1⟩ [⟨.prepare, 0⟩, ⟨.install, 0⟩, ⟨.install, 1⟩] q
      outcome := by
  rw [show callStep term target ⟨.prepare, 1⟩ p = finishStep (prepareProcessor target) p by
    unfold callStep; rw [hw.steps]; rfl] at hcall
  obtain ⟨hstream, hs, hattempts, hnone, answer, rfl⟩ := prepareProcessor_staffed hs hcall
  have ha := hattempts.trans ha
  cases answer with
  | ok => exact .goesOn (hw.of_same hstream) (.dismissed ha hs hnone)
  | error e => exact .fails e (hw.of_same hstream) (knownAfter_of_same ha _ ▸ hs)

theorem prepareStream_answered (hw : p.Watching id l key) (ha : p.factory.attempts = base)
    (hs : p.Staffed report) (hp : target = .inactive → p.processor = none)
    (hcall : callStep term target ⟨.prepare, 0⟩ p = (outcome, q)) :
    Answered id base report target ⟨.prepare, 0⟩ [⟨.install, 0⟩, ⟨.install, 1⟩] q outcome := by
  rw [show callStep term target ⟨.prepare, 0⟩ p = prepareStream ⟨.prepare, 0⟩ key term target p
    by unfold callStep; rw [hw.steps]; rfl] at hcall
  have hstep : p.steps[(⟨.prepare, 0⟩ : StepCall).step]? = some (.logStream key) := by
    rw [hw.steps]
    rfl
  have hopening := (prepareStream_aside hstep hcall).2
  obtain ⟨hsame, m, after, hm, hactive, hinactive⟩ := prepareStream_watching hw hcall
  have ha := hsame.attempts.trans ha
  have hs := hs.of_same hsame
  have hp : target = .inactive → q.processor = none ∧ after = none := fun ht =>
    ⟨hsame.processor.trans (hp ht), hinactive ht⟩
  cases outcome with
  | done answer =>
    cases answer with
    | ok => exact .goesOn hm (.unwatched ha hs hp)
    | error e => exact .fails e hm (knownAfter_of_same ha _ ▸ hs)
  | held awaited =>
    obtain ⟨t, rfl⟩ := stream_of_opening hopening
    have ht : target = .inactive := by
      by_contra hne
      simpa using hactive hne
    subst ht
    exact .awaits _ hm hs (fun _ => ha) fun ticket term =>
      .closing ticket term t (hp rfl).1 (hp rfl).2

theorem installStream_answered (hw : p.Watching id l key) (ha : p.factory.attempts = base)
    (hs : p.Staffed report) (hp : target = .inactive → p.processor = none ∧ key = none)
    (hcall : callStep term target ⟨.install, 0⟩ p = (outcome, q)) :
    Answered id base report target ⟨.install, 0⟩ [⟨.install, 1⟩] q outcome := by
  rw [show callStep term target ⟨.install, 0⟩ p = installStream ⟨.install, 0⟩ term target p
    by unfold callStep; rw [hw.steps]; rfl] at hcall
  have hopening := (installStream_aside hcall).2
  obtain ⟨hsame, m, after, hm, hinactive, hactive⟩ := installStream_watching hw hcall
  have ha := hsame.attempts.trans ha
  have hs := hs.of_same hsame
  cases outcome with
  | done answer =>
    cases answer with
    | ok =>
      refine .goesOn hm (.watched ha hs (fun ht => ?_) fun ht => hactive ht rfl)
      exact ⟨hsame.processor.trans (hp ht).1, (hinactive ht).2.trans (hp ht).2⟩
    | error e => exact .fails e hm (knownAfter_of_same ha _ ▸ hs)
  | held awaited =>
    obtain ⟨t, rfl⟩ := stream_of_opening hopening
    have ht : target ≠ .inactive := fun ht => by simpa using (hinactive ht).1
    exact .awaits _ hm hs (fun _ => ha) fun ticket term => .opening ticket term t ht

theorem installProcessor_answered (hw : p.Watching id l key) (ha : p.factory.attempts = base)
    (hs : p.Staffed report) (hp : target = .inactive → p.processor = none ∧ key = none)
    (hk : target ≠ .inactive → key.isSome = true)
    (hcall : callStep term target ⟨.install, 1⟩ p = (outcome, q)) :
    Answered id base report target ⟨.install, 1⟩ [] q outcome := by
  rw [show callStep term target ⟨.install, 1⟩ p = installProcessor term target p
    by unfold callStep; rw [hw.steps]; rfl] at hcall
  have hheld := (installProcessor_turned hcall).2
  obtain ⟨hstream, hinstalled, hinactive⟩ := installProcessor_staffed hs hcall
  have hm := hw.of_same hstream
  -- nothing was built for an inactive role, and a processor is held in an active one
  have hends : ∀ s, outcome = .done (.ok ()) → s = knownAfter base report q (.ok ()) →
      q.Staffed s → Reached base report target q key [] := by
    rintro s hok rfl hs
    refine .finished hs (fun ht => ?_) fun ht => ?_
    · obtain ⟨-, rfl⟩ := hinactive ht
      exact ⟨(hp ht).1, (hp ht).2, ha⟩
    · obtain ⟨pr, hpr, -⟩ := hheld ht hok
      exact ⟨hk ht, by rw [hpr]; rfl⟩
  cases hinstalled with
  | kept answer hattempts hs =>
    have ha := hattempts.trans ha
    cases answer with
    | ok => exact .goesOn hm (hends report rfl (knownAfter_of_same ha _).symm hs)
    | error e => exact .fails e hm (knownAfter_of_same ha _ ▸ hs)
  | ended answer hattempts hs =>
    rw [ha] at hattempts
    cases answer with
    | ok => exact .goesOn hm (hends _ rfl (knownAfter_of_next hattempts _).symm hs)
    | error e => exact .fails e hm (knownAfter_of_next hattempts _ ▸ hs)
  | begun pr hattempts hs hnone =>
    have ht : target ≠ .inactive := fun ht => by simpa using (hinactive ht).1
    exact .awaits _ hm hs (fun hopening => by simp [Awaited.opening] at hopening)
      fun ticket term => .installing ticket term pr ht hnone (hk ht)

theorem callStep_answered (hw : p.Watching id l key)
    (hr : Reached base report target p key (call :: rest))
    (hcall : callStep term target call p = (outcome, q)) :
    Answered id base report target call rest q outcome := by
  cases hr with
  | fromStart ha hs => exact prepareProcessor_answered hw ha hs hcall
  | dismissed ha hs hp => exact prepareStream_answered hw ha hs hp hcall
  | unwatched ha hs hp => exact installStream_answered hw ha hs hp hcall
  | watched ha hs hp hk => exact installProcessor_answered hw ha hs hp hk hcall

/-- How the calls of a change leave the partition. -/
inductive Concluded (id base : Nat) (report : Option Health) (target : Role) (q : Partition) :
    ChangeOutcome → Prop where
  | succeeds {m : Lifecycle} {key : Option ListenerKey} (hw : q.Watching id m key)
    (hs : q.Staffed (knownAfter base report q (.ok ())))
    (hp : target = .inactive → q.processor = none ∧ key = none ∧ q.factory.attempts = base)
    (hk : target ≠ .inactive → key.isSome = true ∧ q.processor.isSome = true) :
    Concluded id base report target q (.done (.ok ()))
  | fails {m : Lifecycle} {key : Option ListenerKey} (e : LogError) (hw : q.Watching id m key)
    (hs : q.Staffed (knownAfter base report q (.error e))) :
    Concluded id base report target q (.done (.error e))
  | awaits {m : Lifecycle} {key : Option ListenerKey} (call : StepCall) (awaited : Awaited)
    (rest : List StepCall) (hw : q.Watching id m key)
    (hs : q.Staffed report) (ha : awaited.opening = none → q.factory.attempts = base)
    (hheld : ∀ ticket term, Suspended q key ⟨ticket, term, target, call, awaited, rest⟩) :
    Concluded id base report target q (.held call awaited rest)

theorem makeCalls_concluded {result : ChangeOutcome} (hw : p.Watching id l key)
    (hr : Reached base report target p key left)
    (hcalls : makeCalls term target left p = (result, q)) :
    Concluded id base report target q result := by
  induction left generalizing p l key with
  | nil =>
    simp only [makeCalls, Prod.mk.injEq] at hcalls
    obtain ⟨rfl, rfl⟩ := hcalls
    cases hr with
    | finished hs hp hk =>
      exact .succeeds (hw.of_same ⟨⟨rfl, rfl⟩, rfl, rfl⟩) (hs.of_same ⟨rfl, rfl, rfl, rfl⟩) hp hk
  | cons call rest ih =>
    generalize hcall : callStep term target call p = step at hcalls
    obtain ⟨outcome, s⟩ := step
    have hanswered := callStep_answered hw hr hcall
    unfold makeCalls at hcalls
    rw [hcall] at hcalls
    cases hanswered with
    | goesOn hm hr => exact ih hm hr hcalls
    | fails e hm hs =>
      simp only [Prod.mk.injEq] at hcalls
      obtain ⟨rfl, rfl⟩ := hcalls
      exact .fails e hm hs
    | awaits awaited hm hs ha hheld =>
      simp only [Prod.mk.injEq] at hcalls
      obtain ⟨rfl, rfl⟩ := hcalls
      exact .awaits call awaited rest hm hs ha hheld

/-! ## What an incident keeps -/

/-- The monitor knows what the steps of the partition `id` report, whatever change waits. -/
structure Fit (p : Partition) (id : Nat) (report : Option Health) : Prop where
  staffed : p.Staffed report
  watching : ∃ l key, p.Watching id l key ∧ ∀ change, p.held = some change →
    Suspended p key change ∧ p.tickets[change.ticket]? = some .pending

/-- What holds after a change to `target` that succeeded, if `report` is known of the last install. -/
structure HealthFits (target : Role) (report : Option Health) (q : Partition) : Prop where
  inactive : target = .inactive → q.processor = none ∧ q.health.status q.streamComponent = none ∧
    q.health.status processorComponent = report
  active : target ≠ .inactive → q.processor.isSome = true ∧
    q.health.status processorComponent = some .healthy ∧
    (q.health.status q.streamComponent).isSome = true

structure Stepped (p : Partition) (i : Incident id) (report : Option Health) : Prop where
  fit : (p.undergo i).Fit id (p.reported i report)
  succeeded : ∀ target, p.endedBy i = some (target, .ok ()) →
    HealthFits target report (p.undergo i)

variable {i : Incident id} {move : Move} {result : ChangeOutcome}

theorem Suspended.of_same {change : HeldChange} (h : Suspended p key change)
    (hprocessor : q.processor = p.processor) : Suspended q key change := by
  cases h with
  | closing ticket term t hp hk => exact .closing ticket term t (hprocessor.trans hp) hk
  | opening ticket term t hactive => exact .opening ticket term t hactive
  | installing ticket term pr hactive hp hk =>
    exact .installing ticket term pr hactive (hprocessor.trans hp) hk

theorem watching_concluded (hw : q.Watching id l key) (ticket term : Nat) (target : Role)
    (result : ChangeOutcome) : (conclude ticket term target (result, q)).Watching id l key := by
  cases result <;> exact hw.of_same ⟨⟨rfl, rfl⟩, rfl, rfl⟩

theorem staffed_concluded (hs : q.Staffed report) (ticket term : Nat) (target : Role)
    (result : ChangeOutcome) : (conclude ticket term target (result, q)).Staffed report := by
  cases result <;> exact hs.of_same ⟨rfl, rfl, rfl, rfl⟩

/-- An incident that ends no change and no install. -/
theorem stepped_of_quiet (hfit : (p.undergo i).Fit id report)
    (hquiet : p.installEnded (p.undergo i) = false) (hended : p.endedBy i = none) :
    p.Stepped i report := by
  refine ⟨?_, fun target hsome => by simp [hended] at hsome⟩
  rw [reported, hquiet]
  exact hfit

theorem installEnded_concluded (hopening : p.opening = none) (ticket term : Nat) (target : Role)
    (result : ChangeOutcome) : p.installEnded (conclude ticket term target (result, q))
      = (decide (p.factory.attempts < q.factory.attempts) && result.opening.isNone) := by
  unfold installEnded
  rw [hopening]
  cases result <;> rfl

theorem reported_of_done {answer : Except LogError Unit} (hopening : p.opening = none)
    (hundergone : p.undergo i = conclude ticket term target (.done answer, q))
    (hended : p.endedBy i = some (target, answer)) :
    p.reported i report = knownAfter p.factory.attempts report q answer := by
  rw [reported, hundergone, installEnded_concluded hopening, hended]
  by_cases hbuilt : p.factory.attempts < q.factory.attempts
  · simp [knownAfter, hbuilt, ChangeOutcome.opening]
  · simp [knownAfter, hbuilt]

/-- A change that succeeds leaves what fits its role. -/
theorem healthFits_of_ok (hw : q.Watching id l key)
    (hs : q.Staffed (knownAfter base report q (.ok ())))
    (hp : target = .inactive → q.processor = none ∧ key = none ∧ q.factory.attempts = base)
    (hk : target ≠ .inactive → key.isSome = true ∧ q.processor.isSome = true) :
    HealthFits target report q where
  inactive ht := by
    obtain ⟨hnone, rfl, ha⟩ := hp ht
    refine ⟨hnone, ?_, ?_⟩
    · simpa using hw.tracked
    · rw [hs.vacant hnone, knownAfter_of_same ha]
  active ht := by
    obtain ⟨hkey, hsome⟩ := hk ht
    exact ⟨hsome, (hs.held hsome).1, hw.tracked.trans hkey⟩

theorem HealthFits.concluded (h : HealthFits target report q) (ticket term : Nat) (role : Role)
    (answer : Except LogError Unit) :
    HealthFits target report (conclude ticket term role (.done answer, q)) := ⟨h.inactive, h.active⟩

theorem fit_of_done {answer : Except LogError Unit} (hw : q.Watching id l key)
    (hs : q.Staffed report) : (conclude ticket term target (.done answer, q)).Fit id report :=
  ⟨staffed_concluded hs .., l, key, watching_concluded hw .., fun change hheld => by
    simp [conclude] at hheld⟩

/-- A change began with an incident, or went on, and no processor was being opened before. -/
theorem stepped_of_concluded (hmove : i.move? = some move) (hact : p.undergo i = p.act move)
    (hopening : p.opening = none) (hrunning : p.running move = some (ticket, target))
    (hconcluded : p.act move = conclude ticket term target (result, q))
    (hticket : q.tickets[ticket]? = some .pending)
    (h : Concluded id p.factory.attempts report target q result) : p.Stepped i report := by
  have hended : p.endedBy i = result.over.map (target, ·) := by
    rw [endedBy, hmove]
    exact ended_of_concluded hrunning hconcluded hticket
  have hundergone := hact.trans hconcluded
  cases h with
  | succeeds hw hs hp hk =>
    refine ⟨?_, fun role hrole => ?_⟩
    · rw [reported_of_done hopening hundergone hended, hundergone]
      exact fit_of_done hw hs
    · rw [hended] at hrole
      obtain rfl : target = role := congrArg Prod.fst (Option.some.inj hrole)
      rw [hundergone]
      exact (healthFits_of_ok hw hs hp hk).concluded ..
  | fails e hw hs =>
    refine ⟨?_, fun role hrole => by simp [hended, ChangeOutcome.over] at hrole⟩
    rw [reported_of_done hopening hundergone hended, hundergone]
    exact fit_of_done hw hs
  | @awaits m key call awaited rest hw hs ha hheld =>
    refine stepped_of_quiet ?_ ?_ hended
    · rw [hundergone]
      refine ⟨staffed_concluded hs .., m, key, watching_concluded hw .., fun change hchange => ?_⟩
      obtain rfl : _ = change := Option.some.inj hchange
      exact ⟨(hheld ticket term).of_same rfl, hticket⟩
    · rw [hundergone, installEnded_concluded hopening]
      cases hawaited : awaited.opening with
      | none => simp [ha hawaited]
      | some pr => simp [ChangeOutcome.opening, hawaited]

/-! ## Incidents one after the other -/

theorem makeCalls_tickets {calls : List StepCall} (h : makeCalls term target calls p = (result, q)) :
    q.tickets = p.tickets := by
  obtain ⟨r, hturned, rfl⟩ := makeCalls_turned h
  rw [tickets_recorded, hturned.steady.tickets]

theorem Fit.request (h : p.Fit id report) (term : Nat) (target : Role) :
    p.Stepped (.request term target : Incident id) report := by
  obtain ⟨hs, l, key, hw, hheld⟩ := h
  by_cases hidle : p.held = none
  · have hopening : p.opening = none := by simp [opening, hidle]
    have hrunning : p.running (.request term target) = some (p.tickets.length, target) := by
      simp [running, hidle]
    have hact := requestRole_idle hidle term target
    have hcount : p.steps.length = 2 := by
      rw [hw.steps]
      rfl
    rw [hcount] at hact
    generalize hcalls : makeCalls term target (plannedCalls 2)
      { p with tickets := p.tickets ++ [.pending] } = result at hact
    obtain ⟨result, q⟩ := result
    have hissued : Partition.Watching { p with tickets := p.tickets ++ [.pending] } id l key :=
      hw.of_same ⟨⟨rfl, rfl⟩, rfl, rfl⟩
    have hstaffed : Partition.Staffed { p with tickets := p.tickets ++ [.pending] } report :=
      hs.of_same ⟨rfl, rfl, rfl, rfl⟩
    have hconcluded := makeCalls_concluded hissued (.fromStart rfl hstaffed) hcalls
    refine stepped_of_concluded rfl rfl hopening hrunning hact ?_ hconcluded
    rw [makeCalls_tickets hcalls]
    simp
  · have hbusy := requestRole_busy hidle term target
    obtain ⟨change, hchange⟩ := Option.ne_none_iff_exists'.1 hidle
    have hundergone : p.undergo (.request term target : Incident id) = { p with tickets :=
        p.tickets ++ [.finished (.error (.transitionInProgress p.id target.text))] } := hbusy
    refine stepped_of_quiet ?_ ?_ ?_
    · rw [hundergone]
      refine ⟨hs.of_same ⟨rfl, rfl, rfl, rfl⟩, l, key, hw.of_same ⟨⟨rfl, rfl⟩, rfl, rfl⟩,
        fun other hother => ?_⟩
      obtain ⟨hsuspended, hpending⟩ := hheld other hother
      refine ⟨hsuspended.of_same rfl, ?_⟩
      have hlt := (List.getElem?_eq_some_iff.1 hpending).1
      rw [List.getElem?_append_left hlt]
      exact hpending
    · rw [hundergone]
      simp [installEnded, opening]
    · simp [endedBy, Incident.move?, ended, running, hchange]

/-- A move that goes on with what waits, and that nothing waits for. -/
theorem Fit.ignores (h : p.Fit id report) (hmove : i.move? = some move)
    (hundergone : p.undergo i = p.act move) (hact : p.act move = p)
    (hrunning : p.running move = p.held.map fun change => (change.ticket, change.role)) :
    p.Stepped i report := by
  have ⟨_, l, key, _, hheld⟩ := h
  rw [hact] at hundergone
  refine stepped_of_quiet (hundergone.symm ▸ h) (by rw [hundergone]; simp [installEnded]) ?_
  rw [endedBy, hmove, Option.bind_some, ended, hrunning, hact]
  cases hchange : p.held with
  | none => rfl
  | some change =>
    rw [Option.map_some, Option.bind_some]
    dsimp only
    rw [Partition.ticket, List.getD_eq_getElem?_getD, (hheld change hchange).2]
    rfl

/-- What the stream answered takes a change on to the calls behind the one that waited. -/
theorem Suspended.reached {change : HeldChange} {t : Nat} {outcome answer : Except LogError Unit}
    (h : Suspended p key change) (hawaited : change.awaited = .stream t) (hw : p.Watching id l key)
    (hs : p.Staffed report) (hend : (endStream change.call change.term outcome).run p = (answer, q)) :
    p.SameStaff q ∧ ∃ m after, q.Watching id m after ∧
      (answer = .ok () → Reached p.factory.attempts report change.role q after change.rest) := by
  cases h with
  | closing ticket term t hp hk =>
    obtain ⟨-, hsame, m, after, hm, hprepare, -⟩ := endStream_watching hw rfl hend
    refine ⟨hsame, m, after, hm, fun _ => .unwatched hsame.attempts (hs.of_same hsame) fun _ => ?_⟩
    exact ⟨hsame.processor.trans hp, (hprepare rfl).trans hk⟩
  | opening ticket term t hactive =>
    obtain ⟨rfl, hsame, m, after, hm, -, hinstall⟩ := endStream_watching hw rfl hend
    refine ⟨hsame, m, after, hm, fun hok => .watched hsame.attempts (hs.of_same hsame) ?_ ?_⟩
    · exact fun ht => absurd ht hactive
    · exact fun _ => hinstall rfl hok
  | installing => simp at hawaited

/-- A change goes on after the call that it waited for in the stream step. -/
theorem stepped_of_goOn {change : HeldChange} {answer : Except LogError Unit}
    (hmove : i.move? = some move) (hact : p.undergo i = p.act move) (hopening : p.opening = none)
    (hrunning : p.running move = some (change.ticket, change.role))
    (hpending : p.tickets[change.ticket]? = some .pending)
    (hgoes : p.act move = goOn change (answer, q)) (htickets : q.tickets = p.tickets)
    (hw : q.Watching id l key) (hs : q.Staffed report) (ha : q.factory.attempts = p.factory.attempts)
    (hok : answer = .ok () →
      Reached p.factory.attempts report change.role q key change.rest) : p.Stepped i report := by
  cases answer with
  | ok =>
    unfold goOn at hgoes
    dsimp only at hgoes
    generalize hcalls : makeCalls change.term change.role change.rest q = result at hgoes
    obtain ⟨result, last⟩ := result
    refine stepped_of_concluded hmove hact hopening hrunning hgoes ?_
      (makeCalls_concluded hw (hok rfl) hcalls)
    rw [makeCalls_tickets hcalls, htickets, hpending]
  | error e =>
    refine stepped_of_concluded hmove hact hopening hrunning hgoes (by rw [htickets, hpending]) ?_
    exact .fails e hw (knownAfter_of_same ha _ ▸ hs)

theorem Fit.resume (h : p.Fit id report) : p.Stepped (.resume : Incident id) report := by
  have hignored (hact : p.act .resume = p) : p.Stepped (.resume : Incident id) report :=
    h.ignores rfl rfl hact rfl
  have ⟨hs, l, key, hw, hheld⟩ := h
  cases hchange : p.held with
  | none => exact hignored (by simp [act, Partition.resume, hchange])
  | some change =>
    obtain ⟨hsuspended, hpending⟩ := hheld change hchange
    cases hawaited : change.awaited with
    | processor pr => exact hignored (by simp [act, Partition.resume, hchange, hw.stream, hawaited])
    | stream t =>
      cases hout : (l.ticket t).outcome with
      | none => exact hignored (by simp [act, Partition.resume, hchange, hw.stream, hawaited, hout])
      | some outcome =>
        have hgoes : p.act .resume
            = goOn change ((endStream change.call change.term outcome).run p) := by
          simp [act, Partition.resume, hchange, hw.stream, hawaited, hout]
        generalize hend : (endStream change.call change.term outcome).run p = result at hgoes
        obtain ⟨answer, q⟩ := result
        obtain ⟨hsame, m, after, hm, hreached⟩ := hsuspended.reached hawaited hw hs hend
        have hopening : p.opening = none := by
          rw [opening_of_held hchange, hawaited]
          rfl
        exact stepped_of_goOn rfl rfl hopening (by simp [running, hchange]) hpending hgoes
          (endStream_aside hend).steady.tickets hm (hs.of_same hsame) hsame.attempts hreached

/-- The open of a processor ended, and with it the change. -/
theorem Fit.letGo (h : p.Fit id report) (opened : Except LogError Unit) :
    p.Stepped (.letGo opened : Incident id) report := by
  have hignored (hact : p.act (.letGo opened) = p) :
      p.Stepped (.letGo opened : Incident id) report := h.ignores rfl rfl hact rfl
  have ⟨hs, l, key, hw, hheld⟩ := h
  cases hchange : p.held with
  | none => exact hignored (by simp [act, Partition.letGo, hchange])
  | some change =>
    obtain ⟨hsuspended, hpending⟩ := hheld change hchange
    have hrunning : p.running (.letGo opened) = some (change.ticket, change.role) := by
      simp [running, hchange]
    have hopening : p.opening = change.awaited.opening := opening_of_held hchange
    cases hsuspended with
    | closing => exact hignored (by simp [act, Partition.letGo, hchange])
    | opening => exact hignored (by simp [act, Partition.letGo, hchange])
    | @installing ticket term role pr hactive hp hk =>
      generalize hend : (endInstall term role pr opened).run p = result
      obtain ⟨answer, q⟩ := result
      obtain ⟨hstream, hstaffed, -⟩ := endInstall_staffed p term role pr opened hend
      obtain ⟨hturned, hinstalled⟩ := endInstall_turned hp hend
      -- no call is left behind the one that waited
      obtain ⟨last, hlast, hsame, htickets, hconcluded⟩ : ∃ last : Partition, q.SameStream last ∧
          q.SameStaff last ∧ last.tickets = q.tickets ∧
          p.act (.letGo opened) = conclude ticket term role (.done answer, last) := by
        have hgoes : p.act (.letGo opened)
            = goOn ⟨ticket, term, role, ⟨.install, 1⟩, .processor pr, []⟩ (answer, q) := by
          simp [act, Partition.letGo, hchange, hend]
        cases answer with
        | ok => exact ⟨{ q with role := some role, term := term }, ⟨⟨rfl, rfl⟩, rfl, rfl⟩,
            ⟨rfl, rfl, rfl, rfl⟩, rfl, hgoes⟩
        | error e => exact ⟨q, .refl q, .refl q, rfl, hgoes⟩
      have hticket : last.tickets[ticket]? = some .pending := by
        rw [htickets, hturned.steady.tickets, hpending]
      have hended : p.endedBy (.letGo opened : Incident id) = some (role, answer) :=
        ended_of_concluded hrunning hconcluded hticket
      have hundergone : p.undergo (.letGo opened : Incident id)
          = conclude ticket term role (.done answer, last) := hconcluded
      have hm := (hw.of_same hstream).of_same hlast
      have hs := hstaffed.of_same hsame
      refine ⟨?_, fun target htarget => ?_⟩
      · have hreported : p.reported (.letGo opened : Incident id) report
            = Health.ofInstall answer := by
          rw [reported, hundergone, hended, installEnded, hopening]
          rfl
        rw [hreported, hundergone]
        exact fit_of_done hm hs
      · rw [hended] at htarget
        obtain ⟨rfl, rfl⟩ := Prod.mk.inj (Option.some.inj htarget)
        have hsome : last.processor.isSome = true := by
          rw [hsame.processor, hinstalled rfl]
          rfl
        rw [hundergone]
        refine HealthFits.concluded ⟨fun ht => absurd ht hactive, fun _ => ⟨hsome, ?_, ?_⟩⟩ ..
        · exact (hs.held hsome).1
        · exact hm.tracked.trans hk

theorem Fit.equip (h : p.Fit id report) (shouldProcess : Bool)
    (plan : Nat → Option ProcessorTraits) :
    p.Stepped (.equip shouldProcess plan : Incident id) report := by
  obtain ⟨hs, l, key, hw, hheld⟩ := h
  refine stepped_of_quiet ⟨hs.of_same ⟨rfl, rfl, rfl, rfl⟩, l, key, hw.of_same ⟨⟨rfl, rfl⟩, rfl, rfl⟩,
    fun change hchange => ?_⟩ ?_ rfl
  · obtain ⟨hsuspended, hpending⟩ := hheld change hchange
    exact ⟨hsuspended.of_same rfl, hpending⟩
  · simp [installEnded, Partition.undergo, opening]

/-- Reports of others are on components of theirs. -/
theorem Fit.hears (h : p.Fit id report) {f : HealthMonitor → HealthMonitor}
    (hf : ∀ m, ∀ component ∈ ownComponents id, (f m).status component = m.status component) :
    p.Stepped (.report f hf : Incident id) report := by
  obtain ⟨hs, l, key, hw, hheld⟩ := h
  have hprocessor : (f p.health).status processorComponent = p.health.status processorComponent :=
    hf _ _ (by simp [ownComponents])
  have hstream : (f p.health).status p.streamComponent = p.health.status p.streamComponent :=
    hf _ _ (by simp [ownComponents, streamComponent, hw.number])
  refine stepped_of_quiet ⟨hs.of_same ⟨rfl, rfl, rfl, hprocessor⟩, l, key,
    hw.of_same ⟨⟨rfl, rfl⟩, rfl, hstream⟩, fun change hchange => ?_⟩ ?_ rfl
  · obtain ⟨hsuspended, hpending⟩ := hheld change hchange
    exact ⟨hsuspended.of_same rfl, hpending⟩
  · simp [installEnded, Partition.undergo, opening]

/-- Listeners of others report on components of theirs. -/
theorem Fit.useStream (h : p.Fit id report) {f : Lifecycle → Lifecycle}
    (hf : ∀ l, ∀ x ∈ (f l).stream.appender.listeners.known,
      x ∈ l.stream.appender.listeners.known ∨
        ∀ component ∈ ownComponents id, x.component ≠ some component) :
    p.Stepped (.useStream f hf : Incident id) report := by
  obtain ⟨hs, l, key, hw, hheld⟩ := h
  have hused : p.Watches id (f l) key := by
    refine { hw.toWatches with reports := fun x hx => ?_ }
    rcases hf l x hx with hknown | hothers
    · exact hw.reports x hknown
    · refine ⟨hothers _ (by simp [ownComponents]), fun hcomponent => ?_⟩
      exact absurd hcomponent (hothers _ (by simp [ownComponents]))
  obtain ⟨⟨m, hm⟩, hsame⟩ := hused.takeBack
  have hundergone : p.undergo (.useStream f hf : Incident id) = p.takeBack (f l) := by
    simp [Partition.undergo, hw.stream]
  refine stepped_of_quiet ?_ ?_ rfl
  · rw [hundergone]
    refine ⟨hs.of_same hsame, m, key, hm, fun change hchange => ?_⟩
    obtain ⟨hsuspended, hpending⟩ := hheld change hchange
    exact ⟨hsuspended.of_same rfl, hpending⟩
  · rw [hundergone]
    simp [installEnded, opening, takeBack, passOn]

theorem Fit.undergo (h : p.Fit id report) (i : Incident id) : p.Stepped i report := by
  cases i with
  | request term target => exact h.request term target
  | letGo opened => exact h.letGo opened
  | resume => exact h.resume
  | equip shouldProcess plan => exact h.equip shouldProcess plan
  | report f hf => exact h.hears hf
  | useStream f hf => exact h.useStream hf

theorem Fit.undergone (h : p.Fit id report) (incidents : List (Incident id)) :
    (p.undergone incidents).Fit id (p.lastReport report incidents) := by
  induction incidents generalizing p report with
  | nil => exact h
  | cons i rest ih => exact ih (h.undergo i).fit

/-! ## Any history -/

/-- The monitor tells what the role asks for, after these incidents and one more. -/
structure HealthFollowsRole (p : Partition) (incidents : List (Incident id)) : Prop where
  /-- The processor is tracked as healthy while it is held, and else if the last install failed. -/
  processor : (p.undergone incidents).health.status processorComponent
    = if (p.undergone incidents).processor.isSome then some .healthy
      else p.lastReport none incidents
  /-- A change to this target succeeds. -/
  succeeded : ∀ (i : Incident id) target, (p.undergone incidents).endedBy i = some (target, .ok ()) →
    HealthFits target (p.lastReport none incidents) ((p.undergone incidents).undergo i)

/-- Whatever roles are asked for, and whichever installs, opens and closes fail or wait: after a change
to an active role its processor is tracked as healthy, and after one to the inactive role neither the
stream nor a processor is tracked, unless the last install failed. -/
theorem health_follows_role (id : Nat) (s : LogStream)
    (hcollected : s.appender.listeners.delivered = [])
    (hothers : ∀ x ∈ s.appender.listeners.registered, ∀ component ∈ ownComponents id,
      x.component ≠ some component) (incidents : List (Incident id)) :
    (rigged id s).HealthFollowsRole incidents := by
  have hstart : (rigged id s).Fit id none := by
    refine ⟨⟨fun hsome => by simp [rigged] at hsome, fun _ => rfl⟩, { stream := s }, none,
      ⟨⟨rfl, rfl, fun x hx => ?_, rfl⟩, rfl, hcollected⟩, fun change hheld => by simp [rigged] at hheld⟩
    rw [Listeners.known_of_collected hcollected] at hx
    refine ⟨hothers x hx _ (by simp [ownComponents]), fun hcomponent => ?_⟩
    exact absurd hcomponent (hothers x hx _ (by simp [ownComponents]))
  have hfit := hstart.undergone incidents
  refine ⟨?_, fun i => (hfit.undergo i).succeeded⟩
  split
  · next hsome => exact (hfit.staffed.held hsome).1
  · next hnone => exact hfit.staffed.vacant (by simpa using hnone)

/-- A stream over an empty memory. -/
def emptyStream : LogStream where
  config := {}
  appender := {
    log := { storage := .newMemory, sampling := { threshold := 8, windowSize := 64 } }
    buffer := { capacity := 128, maxFragment := 32 }
    maxBlock := 64 }

/-- The factory builds nothing at first. -/
def refused : List (Incident 1) := [.equip true fun _ => none, .request 1 .follower]

theorem health_follows_role_refused :
    emptyStream.appender.listeners.delivered = [] ∧
      (∀ x ∈ emptyStream.appender.listeners.registered, ∀ component ∈ ownComponents 1,
        x.component ≠ some component) ∧
      (rigged 1 emptyStream).lastReport none (refused ++ [.equip true fun _ => some {},
        .request 2 .leader]) = none ∧
      (rigged 1 emptyStream).HealthFollowsRole (refused ++ [.equip true fun _ => some {},
        .request 2 .leader]) := by
  have hothers : ∀ x ∈ emptyStream.appender.listeners.registered,
      ∀ component ∈ ownComponents 1, x.component ≠ some component := by simp [emptyStream]
  exact ⟨rfl, hothers, by decide +kernel, health_follows_role 1 emptyStream rfl hothers _⟩

/-- The report of a failed install stays when the role is inactive. -/
theorem health_outlives_role :
    ((rigged 1 emptyStream).undergone refused).endedBy (.request 2 .inactive : Incident 1)
      = some (.inactive, .ok ()) ∧
    (((rigged 1 emptyStream).undergone refused).undergo
      (.request 2 .inactive : Incident 1)).health.status processorComponent
      = some (.unhealthy "Stream processor error: factory refused to build (role FOLLOWER, term 1)") := by
  decide +kernel

end PartitionLog.Partition
