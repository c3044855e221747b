import PartitionLog.Proofs.RoleFit
import PartitionLog.Proofs.Sheltering

/-!
# The calls of a change, stream and processor

A change tears down before it sets up: what it has done by the time of each call (`Poised`) is what
the calls behind it rely on, and a call that fails or waits leaves the partition as sheltered as it
was (`Called`). So the states that a change leads through follow one another (`Follows`): each has its
processor within an open stream, and none works on both at once (`makeCalls_spec`).
-/

namespace PartitionLog.Partition

variable {p q r : Partition} {l : Lifecycle} {target : Role} {term t : Nat} {command : Command}

/-! ## The stream's calls -/

def HasSteps (p : Partition) : Prop := ∃ listener, p.steps = [.logStream listener, .streamProcessor]

theorem HasSteps.setListener (h : p.HasSteps) {step : Nat} {old : Option ListenerKey}
    (hstep : p.steps[step]? = some (.logStream old)) (listener : Option ListenerKey) :
    (p.setListener step listener).HasSteps := by
  obtain ⟨first, hsteps⟩ := h
  rw [hsteps] at hstep
  refine ⟨listener, ?_⟩
  show p.steps.set step (.logStream listener) = _
  rw [hsteps]
  match step with
  | 0 => rfl
  | 1 => simp at hstep
  | n + 2 => simp at hstep

/-- What a call of the stream step comes to: the lifecycle rests, and the command achieved what it is
for if it was carried out, or it is waited for. -/
inductive Attended (m : Lifecycle) (command : Command) : StepOutcome → Prop where
  | done (answer : Except LogError Unit) (hm : m.Resting)
    (h : answer = .ok () → command.Achieved m.stream.state) : Attended m command (.done answer)
  | held (t : Nat) (hm : m.Bound t command) : Attended m command (.held (.stream t))

theorem watchStream_spec {step : Nat} {listener : Option ListenerKey} (h : p.HasSteps)
    (hstep : p.steps[step]? = some (.logStream listener)) (hl : l.Resting) :
    ∃ m, (watchStream step listener l p).stream = some m ∧ (watchStream step listener l p).HasSteps ∧
      m.Resting ∧ m.stream.state = l.stream.state := by
  unfold watchStream
  split
  · exact ⟨l, rfl, h, hl, rfl⟩
  · refine ⟨_, rfl, ?_, hl.onStream ?_, rfl⟩
    · exact h.setListener hstep (some (.partition p.nextListener))
    · rfl

theorem endStream_spec {call : StepCall} {outcome answer : Except LogError Unit} (hsteps : p.HasSteps)
    (hp : p.stream = some l) (hl : l.Resting)
    (h : (endStream call term outcome).run p = (answer, q)) :
    answer = outcome ∧ ∃ m, q.stream = some m ∧ q.HasSteps ∧ m.Resting ∧
      m.stream.state = l.stream.state := by
  unfold Attempt.run endStream at h
  split at h
  · next other listener _ hother hstep =>
    simp only [Prod.mk.injEq] at h
    obtain ⟨rfl, rfl⟩ := h
    obtain rfl : l = other := Option.some.inj (hp.symm.trans hother)
    refine ⟨rfl, ?_⟩
    obtain ⟨m, hstream, hlast, hm, hstate⟩ := watchStream_spec hsteps hstep
      (hl.onStream (f := fun s => { s with term := term }) rfl)
    exact ⟨m, hstream, hlast, hm, hstate⟩
  · simp only [Prod.mk.injEq] at h
    obtain ⟨rfl, rfl⟩ := h
    exact ⟨rfl, l, hp, hsteps, hl, rfl⟩

theorem awaitStream_spec {call : StepCall} {outcome : StepOutcome} (hsteps : p.HasSteps)
    (hl : l.Bound t command) (h : awaitStream call term t l p = (outcome, q)) :
    ∃ m, q.stream = some m ∧ q.HasSteps ∧ Attended m command outcome ∧
      (command = .openUp → l.stream.state = .opened → m.stream.state = .opened) := by
  unfold awaitStream at h
  dsimp only at h
  obtain ⟨hrun, hopened⟩ := hl.runQueue false
  generalize l.runQueue false = run at hrun hopened h
  have hback : (p.takeBack run).HasSteps := hsteps
  obtain ⟨m, hstream, hm, hstate, hticket⟩ : ∃ m, (p.takeBack run).stream = some m ∧
      m.Bound t command ∧ m.stream.state = run.stream.state ∧ m.ticket t = run.ticket t :=
    ⟨_, rfl, hrun.onStream rfl, rfl, rfl⟩
  split at h
  · simp only [Prod.mk.injEq] at h
    obtain ⟨rfl, rfl⟩ := h
    exact ⟨m, hstream, hsteps, .held t hm, fun hopen hs => hstate.trans (hopened hopen hs)⟩
  · next answer hanswer =>
    rw [← hticket] at hanswer
    obtain ⟨hrest, hachieved⟩ := hm.resting hanswer
    generalize hend : (endStream call term answer).run (p.takeBack run) = result at h
    obtain ⟨last, after⟩ := result
    simp only [Prod.mk.injEq] at h
    obtain ⟨rfl, rfl⟩ := h
    obtain ⟨rfl, n, hn, hlast, hresting, hsame⟩ := endStream_spec hback hstream hrest hend
    refine ⟨n, hn, hlast, .done _ hresting ?_, fun hopen hs => ?_⟩
    · rw [hsame]
      exact hachieved
    · exact hsame.trans (hstate.trans (hopened hopen hs))

theorem closeStream_spec {call : StepCall} {outcome : StepOutcome} (hsteps : p.HasSteps)
    (hp : p.stream = some l) (hl : l.Resting)
    (h : (if l.stream.state = .closed then (StepOutcome.done (.ok ()), p)
      else awaitStream call term (l.request .close).1 (l.request .close).2 p) = (outcome, q)) :
    ∃ m, q.stream = some m ∧ q.HasSteps ∧ Attended m .close outcome := by
  split at h
  · next hclosed =>
    simp only [Prod.mk.injEq] at h
    obtain ⟨rfl, rfl⟩ := h
    exact ⟨l, hp, hsteps, .done _ hl fun _ => hclosed⟩
  · next hopen =>
    obtain ⟨hbound, -⟩ := hl.requestClose hopen
    obtain ⟨m, hstream, hlast, hattended, -⟩ := awaitStream_spec hsteps hbound h
    exact ⟨m, hstream, hlast, hattended⟩

/-- Preparing the stream closes it for the inactive role. -/
theorem prepareStream_spec {call : StepCall} {listener : Option ListenerKey} {outcome : StepOutcome}
    (h : p.Rigged none l) (hl : l.Resting) (hstep : p.steps[call.step]? = some (.logStream listener))
    (hnone : target = .inactive → p.processor = none)
    (hcall : prepareStream call listener term target p = (outcome, q)) :
    ∃ m, q.Rigged none m ∧
      ((target ≠ .inactive ∧ outcome = .done (.ok ()) ∧ m.Resting) ∨
        target = .inactive ∧ Attended m .close outcome) := by
  have haside := (prepareStream_aside hstep hcall).1
  have hset : (p.setListener call.step none).HasSteps := HasSteps.setListener h.steps hstep none
  unfold prepareStream at hcall
  split at hcall
  · next hactive =>
    simp only [Prod.mk.injEq] at hcall
    obtain ⟨rfl, rfl⟩ := hcall
    exact ⟨l, h, .inl ⟨by simpa [Role.isActive] using hactive, rfl, hl⟩⟩
  · next hactive =>
    have hinactive : target = .inactive := by simpa [Role.isActive] using hactive
    have hclosed : ∃ m, q.stream = some m ∧ q.HasSteps ∧ Attended m .close outcome := by
      rw [h.stream] at hcall
      cases listener with
      | none => exact closeStream_spec (by exact hset) rfl hl hcall
      | some key => exact closeStream_spec (by exact hset) rfl (hl.onStream rfl) hcall
    obtain ⟨m, hstream, hlast, hattended⟩ := hclosed
    refine ⟨m, h.of_stream haside hlast hstream fun hp => ?_, .inr ⟨hinactive, hattended⟩⟩
    rw [hnone hinactive] at hp
    cases hp

/-- Installing the stream opens it for an active role. -/
theorem installStream_spec {call : StepCall} {outcome : StepOutcome} (h : p.Rigged none l)
    (hl : l.Resting) (hcall : installStream call term target p = (outcome, q)) :
    ∃ m, q.Rigged none m ∧
      ((target = .inactive ∧ outcome = .done (.ok ()) ∧ q = p ∧ m = l) ∨
        target ≠ .inactive ∧ Attended m .openUp outcome) := by
  have haside := (installStream_aside hcall).1
  unfold installStream at hcall
  split at hcall
  · next hinactive =>
    simp only [Prod.mk.injEq] at hcall
    obtain ⟨rfl, rfl⟩ := hcall
    exact ⟨l, h, .inl ⟨by simpa [Role.isActive] using hinactive, rfl, rfl, rfl⟩⟩
  · next hactive =>
    rw [h.stream] at hcall
    dsimp only at hcall
    obtain ⟨hbound, hsame⟩ := hl.requestOpen
    obtain ⟨m, hstream, hlast, hattended, hopened⟩ := awaitStream_spec h.steps hbound hcall
    refine ⟨m, h.of_stream haside hlast hstream fun hp => ?_,
      .inr ⟨by simpa [Role.isActive] using hactive, hattended⟩⟩
    apply hopened rfl
    rw [hsame]
    exact h.opened hp

/-! ## The calls of a change -/

/-- What a change to `target` has done when these calls are left. -/
inductive Poised (target : Role) (p : Partition) (l : Lifecycle) : List StepCall → Prop where
  | fromStart (hr : p.Ranked) :
    Poised target p l [⟨.prepare, 1⟩, ⟨.prepare, 0⟩, ⟨.install, 0⟩, ⟨.install, 1⟩]
  | dismissed (hr : p.Ranked) (hp : target = .inactive → p.processor = none) :
    Poised target p l [⟨.prepare, 0⟩, ⟨.install, 0⟩, ⟨.install, 1⟩]
  | closed (hr : p.Ranked)
    (hp : target = .inactive → p.processor = none ∧ l.stream.state = .closed) :
    Poised target p l [⟨.install, 0⟩, ⟨.install, 1⟩]
  | opened (hr : p.Ranked)
    (hp : target = .inactive → p.processor = none ∧ l.stream.state = .closed)
    (ho : target ≠ .inactive → l.stream.state = .opened) :
    Poised target p l [⟨.install, 1⟩]
  | finished (hp : target = .inactive → p.processor = none ∧ l.stream.state = .closed) :
    Poised target p l []

/-- A change waits for the stream's command with the ticket `t`, with these calls left. -/
inductive Waits (target : Role) (p : Partition) (l : Lifecycle) (t : Nat) : List StepCall → Prop where
  | closing (ht : target = .inactive) (hp : p.processor = none) (hl : l.Bound t .close) :
    Waits target p l t [⟨.install, 0⟩, ⟨.install, 1⟩]
  | opening (ht : target ≠ .inactive) (hl : l.Bound t .openUp) :
    Waits target p l t [⟨.install, 1⟩]

/-- How a call leaves the partition, with these calls left. -/
inductive Called (target : Role) (rest : List StepCall) (q : Partition) : StepOutcome → Prop where
  | goesOn {m : Lifecycle} (h : q.Rigged none m) (hm : m.Resting) (hp : Poised target q m rest) :
    Called target rest q (.done (.ok ()))
  | fails {m : Lifecycle} (e : LogError) (h : q.Rigged none m) (hm : m.Resting) (hr : q.Ranked) :
    Called target rest q (.done (.error e))
  | opens {m : Lifecycle} (pr : Processor) (h : q.Rigged (some pr) m) (hm : m.Resting)
    (ht : target ≠ .inactive) (hrest : rest = []) :
    Called target rest q (.held (.processor pr))
  | awaits {m : Lifecycle} (t : Nat) (h : q.Rigged none m) (hr : q.Ranked)
    (hw : Waits target q m t rest) :
    Called target rest q (.held (.stream t))

variable {call : StepCall} {rest left : List StepCall} {outcome : StepOutcome}

theorem Waits.of_same (h : Waits target p l t rest) (hprocessor : q.processor = p.processor) :
    Waits target q l t rest := by
  cases h with
  | closing ht hp hl => exact .closing ht (hprocessor.trans hp) hl
  | opening ht hl => exact .opening ht hl

theorem Called.within (h : Called target rest q outcome) : q.Within := by
  cases h with
  | goesOn h => exact h.within
  | fails e h => exact h.within
  | opens pr h => exact h.within
  | awaits t h => exact h.within

/-- After the stream's call: an answer lets the change go on or fail, otherwise it waits. -/
theorem Attended.called {m : Lifecycle} (h : Attended m command outcome) (hq : q.Rigged none m)
    (hr : q.Ranked)
    (hp : m.Resting → command.Achieved m.stream.state → Poised target q m rest)
    (hw : ∀ t, m.Bound t command → Waits target q m t rest) : Called target rest q outcome := by
  cases h with
  | done answer hm hachieved =>
    cases answer with
    | ok done => exact .goesOn hq hm (hp hm (hachieved rfl))
    | error e => exact .fails e hq hm hr
  | held t hm => exact .awaits t hq hr (hw t hm)

theorem callStep_spec (h : p.Rigged none l) (hl : l.Resting)
    (hpoised : Poised target p l (call :: rest))
    (hcall : callStep term target call p = (outcome, q)) : Called target rest q outcome := by
  obtain ⟨listener, hsteps⟩ := h.steps
  have hrole := (callStep_turned hcall).steady.role
  cases hpoised with
  | fromStart hr =>
    rw [show callStep term target ⟨.prepare, 1⟩ p = finishStep (prepareProcessor target) p by
      unfold callStep; rw [hsteps]; rfl] at hcall
    obtain ⟨⟨answer, rfl⟩, hq, hrq, hnone⟩ := prepareProcessor_spec h hr hcall
    cases answer with
    | ok done => exact .goesOn hq hl (.dismissed hrq hnone)
    | error e => exact .fails e hq hl hrq
  | dismissed hr hp =>
    have hstep : p.steps[(⟨.prepare, 0⟩ : StepCall).step]? = some (.logStream listener) := by
      rw [hsteps]
      rfl
    rw [show callStep term target ⟨.prepare, 0⟩ p = prepareStream ⟨.prepare, 0⟩ listener term target p
      by unfold callStep; rw [hsteps]; rfl] at hcall
    have haside := (prepareStream_aside hstep hcall).1
    have hrq := hr.of_same haside.processor hrole
    obtain ⟨m, hq, ⟨hactive, rfl, hm⟩ | ⟨hinactive, hattended⟩⟩ :=
      prepareStream_spec h hl hstep hp hcall
    · exact .goesOn hq hm (.closed hrq fun hinactive => absurd hinactive hactive)
    · have hnone := haside.processor.trans (hp hinactive)
      exact hattended.called hq hrq (fun _ hclosed => .closed hrq fun _ => ⟨hnone, hclosed⟩)
        fun t hm => .closing hinactive hnone hm
  | closed hr hp =>
    rw [show callStep term target ⟨.install, 0⟩ p = installStream ⟨.install, 0⟩ term target p
      by unfold callStep; rw [hsteps]; rfl] at hcall
    have hrq := hr.of_same (installStream_aside hcall).1.processor hrole
    obtain ⟨m, hq, ⟨hinactive, rfl, rfl, rfl⟩ | ⟨hactive, hattended⟩⟩ :=
      installStream_spec h hl hcall
    · exact .goesOn hq hl (.opened hr hp fun hactive => absurd hinactive hactive)
    · exact hattended.called hq hrq
        (fun _ hopened => .opened hrq (fun hinactive => absurd hinactive hactive) fun _ => hopened)
        fun t hm => .opening hactive hm
  | opened hr hp ho =>
    rw [show callStep term target ⟨.install, 1⟩ p = installProcessor term target p
      by unfold callStep; rw [hsteps]; rfl] at hcall
    obtain ⟨hq, hnone, hsame⟩ := installProcessor_spec h hcall ho
    by_cases hinactive : target = .inactive
    · obtain ⟨rfl, rfl⟩ := hsame hinactive
      exact .goesOn hq hl (.finished hp)
    · cases outcome with
      | done answer =>
        cases answer with
        | ok done => exact .goesOn hq hl (.finished fun hin => absurd hin hinactive)
        | error e => exact .fails e hq hl (.of_none (hnone.resolve_left (by simp)))
      | held awaited =>
        obtain ⟨pr, rfl⟩ := installProcessor_held hcall
        exact .opens pr hq hl hinactive rfl

/-- No call works on the stream and on a processor. -/
theorem callStep_gentle (hcall : callStep term target call p = (outcome, q)) : p.Gentle q := by
  unfold callStep at hcall
  split at hcall
  · simp only [Prod.mk.injEq] at hcall
    obtain ⟨-, rfl⟩ := hcall
    exact (Beside.refl p).gentle
  · next listener hstep _ => exact (prepareStream_aside hstep hcall).1.gentle
  · exact (installStream_aside hcall).1.gentle
  · have hbeside := prepareProcessor_beside p target
    rw [hcall] at hbeside
    exact hbeside.gentle
  · have hbeside := installProcessor_beside p term target
    rw [hcall] at hbeside
    exact hbeside.gentle
  · exact (record_aside hcall).1.gentle
  · exact (record_aside hcall).1.gentle

/-! ## Changes -/

/-- How the calls of a change leave the partition. -/
inductive Ended (target : Role) (q : Partition) : ChangeOutcome → Prop where
  | succeeded {m : Lifecycle} (h : q.Rigged none m) (hm : m.Resting) (hrole : q.role = some target)
    (hp : target = .inactive → q.processor = none ∧ m.stream.state = .closed) :
    Ended target q (.done (.ok ()))
  | fails {m : Lifecycle} (e : LogError) (h : q.Rigged none m) (hm : m.Resting) (hr : q.Ranked) :
    Ended target q (.done (.error e))
  | opens {m : Lifecycle} (call : StepCall) (pr : Processor) (h : q.Rigged (some pr) m)
    (hm : m.Resting) (ht : target ≠ .inactive) :
    Ended target q (.held call (.processor pr) [])
  | awaits {m : Lifecycle} {rest : List StepCall} (call : StepCall) (t : Nat) (h : q.Rigged none m)
    (hr : q.Ranked) (hw : Waits target q m t rest) :
    Ended target q (.held call (.stream t) rest)

/-- What is looked at on the way is the same. -/
structure Alike (p q : Partition) : Prop where
  stream : q.stream = p.stream
  processor : q.processor = p.processor
  events : q.events = p.events

theorem Alike.refl (p : Partition) : p.Alike p := ⟨rfl, rfl, rfl⟩

/-- One state on the way follows another. -/
def Follows (p q : Partition) : Prop := p.Gentle q ∧ q.Within

theorem Follows.of_alike {p' q' : Partition} (h : p.Follows q) (hp : p.Alike p') (hq : q.Alike q') :
    p'.Follows q' := by
  unfold Follows Gentle Within Vacated Partition.streamState at *
  rw [hp.stream, hp.processor, hp.events, hq.stream, hq.processor, hq.events]
  exact h

/-- The states on the way of a change follow one another. -/
theorem makeCalls_spec {result : ChangeOutcome} (h : p.Rigged none l) (hl : l.Resting)
    (hpoised : Poised target p l left) (hcalls : makeCalls term target left p = (result, q))
    {first last : Partition} (hfirst : p.Alike first) (hlast : q.Alike last) :
    Ended target q result ∧
      (first :: callStates term target left p ++ [last]).IsChain Follows := by
  induction left generalizing p l first with
  | nil =>
    simp only [makeCalls, Prod.mk.injEq] at hcalls
    obtain ⟨rfl, rfl⟩ := hcalls
    cases hpoised with
    | finished hp =>
      have hended : ({ p with role := some target, term := term } : Partition).Rigged none l :=
        ⟨h.steps, h.stream, h.tracked, h.sheltered⟩
      refine ⟨.succeeded hended hl rfl hp, ?_⟩
      have hfollows : p.Follows { p with role := some target, term := term } :=
        ⟨.inl rfl, hended.within⟩
      simpa [callStates] using hfollows.of_alike hfirst hlast
  | cons call rest ih =>
    generalize hcall : callStep term target call p = step at hcalls
    obtain ⟨outcome, s⟩ := step
    have hcalled := callStep_spec h hl hpoised hcall
    have hfollows : p.Follows s := ⟨callStep_gentle hcall, hcalled.within⟩
    unfold makeCalls at hcalls
    unfold callStates
    rw [hcall] at hcalls ⊢
    have hshort : s = q → (first :: [s] ++ [last]).IsChain Follows := by
      rintro rfl
      have hsame : s.Follows last := Follows.of_alike ⟨.inl rfl, hcalled.within⟩ (.refl s) hlast
      have hnext : first.Follows s := hfollows.of_alike hfirst (.refl s)
      simpa using ⟨hnext, hsame⟩
    cases hcalled with
    | goesOn hs hm hp =>
      obtain ⟨hended, hchain⟩ := ih hs hm hp hcalls (.refl s)
      exact ⟨hended, .cons_cons (hfollows.of_alike hfirst (.refl s)) hchain⟩
    | fails e hs hm hr =>
      simp only [Prod.mk.injEq] at hcalls
      obtain ⟨rfl, rfl⟩ := hcalls
      exact ⟨.fails e hs hm hr, hshort rfl⟩
    | opens pr hs hm ht hrest =>
      simp only [Prod.mk.injEq] at hcalls
      obtain ⟨rfl, rfl⟩ := hcalls
      exact ⟨hrest ▸ .opens call pr hs hm ht, hshort rfl⟩
    | awaits t hs hr hw =>
      simp only [Prod.mk.injEq] at hcalls
      obtain ⟨rfl, rfl⟩ := hcalls
      exact ⟨.awaits call t hs hr hw, hshort rfl⟩

end PartitionLog.Partition
