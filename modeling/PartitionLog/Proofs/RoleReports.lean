import PartitionLog.Proofs.Notices
import PartitionLog.Proofs.Sheltering

/-!
# What the steps of a change report

The log stream step tracks the stream while it watches it, under the key of its listener (`Watching`).
The processor step reports a processor that is held as healthy; while none is held, the monitor still
knows of the last install if that failed (`Staffed`). Each call of a change keeps the one by leaving
the processor alone, and the other by leaving the stream alone.
-/

namespace PartitionLog

/-- What is reported of a change that ended so: why a processor could not be installed. -/
def Health.ofInstall : Except LogError Unit → Option Health
  | .error (.installFailed _ target term cause) =>
    some (.unhealthy (LogError.installReason target term cause.message))
  | _ => none

namespace Partition

/-- A listener never reports on a processor, and on the stream only if the step has its key. -/
def ReportsFor (id : Nat) (key : Option ListenerKey) (x : Listener) : Prop :=
  x.component ≠ some processorComponent ∧ (x.component = some s!"log-stream-{id}" → key = some x.key)

/-- With `l` for its stream, the log stream step watches it under this key, or not at all: the stream
is tracked meanwhile, and nobody else reports on it. -/
structure Watches (p : Partition) (id : Nat) (l : Lifecycle) (key : Option ListenerKey) : Prop where
  number : p.id = id
  steps : p.steps = [.logStream key, .streamProcessor]
  reports : ∀ x ∈ l.stream.appender.listeners.known, ReportsFor id key x
  tracked : (p.health.status p.streamComponent).isSome = key.isSome

/-- What the listeners were told was looked at. -/
structure Watching (p : Partition) (id : Nat) (l : Lifecycle) (key : Option ListenerKey) : Prop
    extends p.Watches id l key where
  stream : p.stream = some l
  collected : l.stream.appender.listeners.delivered = []

/-- A processor that is held is healthy. Without one, this is known of the last install. -/
structure Staffed (p : Partition) (report : Option Health) : Prop where
  held : p.processor.isSome = true →
    p.health.status processorComponent = some .healthy ∧ report = none
  vacant : p.processor = none → p.health.status processorComponent = report

/-- The stream, and what is reported of it, are the same. -/
structure SameStream (p q : Partition) : Prop extends p.Beside q where
  id : q.id = p.id
  status : q.health.status p.streamComponent = p.health.status p.streamComponent

/-- The processor, and what is reported of it, are the same. -/
structure SameStaff (p q : Partition) : Prop where
  id : q.id = p.id
  processor : q.processor = p.processor
  attempts : q.factory.attempts = p.factory.attempts
  status : q.health.status processorComponent = p.health.status processorComponent

variable {p q r : Partition} {l m : Lifecycle} {key : Option ListenerKey} {report : Option Health}
variable {target : Role} {id term ticket : Nat} {call : StepCall} {outcome : StepOutcome}

theorem SameStream.refl (p : Partition) : p.SameStream p := ⟨.refl p, rfl, rfl⟩

theorem SameStream.trans (h : p.SameStream q) (hq : q.SameStream r) : p.SameStream r := by
  refine ⟨h.toBeside.trans hq.toBeside, hq.id.trans h.id, ?_⟩
  have hname : q.streamComponent = p.streamComponent := by
    unfold streamComponent
    rw [h.id]
  have hlast := hq.status
  rw [hname] at hlast
  exact hlast.trans h.status

theorem SameStaff.refl (p : Partition) : p.SameStaff p := ⟨rfl, rfl, rfl, rfl⟩

theorem SameStaff.trans (h : p.SameStaff q) (hq : q.SameStaff r) : p.SameStaff r :=
  ⟨hq.id.trans h.id, hq.processor.trans h.processor, hq.attempts.trans h.attempts,
    hq.status.trans h.status⟩

theorem Watching.of_same (h : p.Watching id l key) (hq : p.SameStream q) : q.Watching id l key := by
  refine ⟨⟨hq.id.trans h.number, hq.steps.trans h.steps, h.reports, ?_⟩,
    hq.stream.trans h.stream, h.collected⟩
  have hname : q.streamComponent = p.streamComponent := by
    unfold streamComponent
    rw [hq.id]
  rw [hname, hq.status]
  exact h.tracked

theorem Staffed.of_same (h : p.Staffed report) (hq : p.SameStaff q) : q.Staffed report := by
  obtain ⟨-, hprocessor, -, hstatus⟩ := hq
  exact ⟨by rw [hprocessor, hstatus]; exact h.held, by rw [hprocessor, hstatus]; exact h.vacant⟩

theorem streamComponent_ne (p : Partition) : p.streamComponent ≠ processorComponent := by
  intro h
  have hfirst : p.streamComponent.toList.head? = some 'l' := by
    simp [streamComponent, toString]
  rw [h] at hfirst
  simp [processorComponent] at hfirst

/-! ## The log stream step -/

/-- Whoever the stream told may report on it, if the step watches it. -/
theorem Watches.takeBack (h : p.Watches id l key) :
    (∃ m, (p.takeBack l).Watching id m key) ∧ p.SameStaff (p.takeBack l) := by
  obtain ⟨rfl, hsteps, hreports, htracked⟩ := h
  have htold : ∀ d ∈ l.stream.appender.listeners.delivered, ReportsFor p.id key d.listener :=
    fun d hd => hreports _ (List.mem_append_right _ (List.mem_map_of_mem hd))
  refine ⟨⟨_, ⟨rfl, hsteps, fun x hx => ?_, ?_⟩, rfl, rfl⟩, rfl, rfl, rfl, ?_⟩
  · rw [Listeners.known_of_collected rfl] at hx
    exact hreports x (List.mem_append_left _ hx)
  · show ((List.foldl _ p.health _).status p.streamComponent).isSome = _
    cases key with
    | none =>
      rw [HealthMonitor.status_absorb_all p.health fun d hd hcomponent => by
        simpa using (htold d hd).2 hcomponent]
      exact htracked
    | some key => exact HealthMonitor.isSome_status_absorb_all htracked
  · exact HealthMonitor.status_absorb_all p.health fun d hd => (htold d hd).1

/-- From the install of an open stream on it is watched. -/
theorem watchStream_watching (h : p.Watching id m key)
    (hknown : l.stream.appender.listeners = m.stream.appender.listeners) :
    (∃ n last, (watchStream 0 key l p).Watching id n last ∧ last.isSome = true) ∧
      p.SameStaff (watchStream 0 key l p) := by
  obtain ⟨⟨rfl, hsteps, hreports, htracked⟩, -, hcollected⟩ := h
  rw [← hknown] at hcollected hreports
  unfold watchStream
  cases key with
  | some key =>
    exact ⟨⟨l, some key, ⟨⟨rfl, hsteps, hreports, htracked⟩, rfl, hcollected⟩, rfl⟩, rfl, rfl,
      rfl, rfl⟩
  | none =>
    refine ⟨⟨_, some (.partition p.nextListener), ⟨⟨rfl, ?_, fun x hx => ?_, ?_⟩, rfl, ?_⟩, rfl⟩,
      rfl, rfl, rfl, ?_⟩
    · show p.steps.set 0 _ = _
      rw [hsteps]
      rfl
    · rcases Listeners.mem_of_mem_register hx with hold | rfl
      · obtain ⟨hprocessor, hstream⟩ := hreports x hold
        exact ⟨hprocessor, fun hcomponent => by simpa using hstream hcomponent⟩
      · exact ⟨by simpa using p.streamComponent_ne, fun _ => rfl⟩
    · show ((p.health.register p.streamComponent).status p.streamComponent).isSome = _
      simp
    · show (Listeners.register _ _).delivered = []
      unfold Listeners.register
      split <;> exact hcollected
    · show (p.health.register p.streamComponent).status processorComponent = _
      rw [HealthMonitor.status_register, if_neg p.streamComponent_ne.symm]

theorem endStream_watching {answer last : Except LogError Unit} (h : p.Watching id l key)
    (hcall : call.step = 0) (hend : (endStream call term answer).run p = (last, q)) :
    last = answer ∧ p.SameStaff q ∧ ∃ m after, q.Watching id m after ∧
      (call.phase = .prepare → after = key) ∧
      (call.phase = .install → answer = .ok () → after.isSome = true) := by
  unfold Attempt.run endStream at hend
  split at hend
  · next m listener hphase hstream hstep =>
    simp only [Prod.mk.injEq] at hend
    obtain ⟨rfl, rfl⟩ := hend
    rw [hcall, h.steps] at hstep
    simp only [List.getElem?_cons_zero, Option.some.injEq, RoleStep.logStream.injEq] at hstep
    subst hstep
    obtain rfl : l = m := Option.some.inj (h.stream.symm.trans hstream)
    rw [hcall]
    have hterm : (l.onStream fun s => { s with term := term }).stream.appender.listeners =
        l.stream.appender.listeners := rfl
    obtain ⟨⟨n, after, hn, hsome⟩, hsame⟩ := watchStream_watching h hterm
    exact ⟨rfl, hsame, n, after, hn, fun hprepare => by simp [hphase] at hprepare,
      fun _ _ => hsome⟩
  · next hother =>
    simp only [Prod.mk.injEq] at hend
    obtain ⟨rfl, rfl⟩ := hend
    refine ⟨rfl, .refl p, l, key, h, fun _ => rfl, fun hphase hok => ?_⟩
    exact absurd (by rw [hcall, h.steps]; rfl) (hother l key hok hphase h.stream)

theorem awaitStream_watching (h : p.Watches id l key) (hcall : call.step = 0)
    (hawait : awaitStream call term ticket l p = (outcome, q)) :
    p.SameStaff q ∧ ∃ m after, q.Watching id m after ∧ (call.phase = .prepare → after = key) ∧
      (call.phase = .install → outcome = .done (.ok ()) → after.isSome = true) := by
  have hrun : p.Watches id (l.runQueue false) key :=
    { h with reports := fun x hx => h.reports x (l.runQueue_knows false hx) }
  obtain ⟨⟨m, hm⟩, hback⟩ := hrun.takeBack
  unfold awaitStream at hawait
  dsimp only at hawait
  split at hawait
  · simp only [Prod.mk.injEq] at hawait
    obtain ⟨rfl, rfl⟩ := hawait
    exact ⟨hback, m, key, hm, fun _ => rfl, fun _ hok => by simp at hok⟩
  · next answer _ =>
    generalize hend : (endStream call term answer).run (p.takeBack (l.runQueue false)) = result
      at hawait
    obtain ⟨last, after⟩ := result
    simp only [Prod.mk.injEq] at hawait
    obtain ⟨rfl, rfl⟩ := hawait
    obtain ⟨rfl, hsame, n, key', hn, hprepare, hinstall⟩ := endStream_watching hm hcall hend
    refine ⟨hback.trans hsame, n, key', hn, hprepare, fun hphase hok => ?_⟩
    exact hinstall hphase (by simpa using hok)

/-- Asking for a command makes no listener known. -/
theorem Watches.request (h : p.Watches id l key) (command : Command) :
    p.Watches id (l.request command).2 key := by
  refine { h with reports := ?_ }
  rw [l.request_stream]
  exact h.reports

/-- Without the step's listener the stream is not watched, and no longer tracked. -/
theorem Watching.leave (h : p.Watching id l key) (left : Lifecycle)
    (hcollected : left.stream.appender.listeners.delivered = [])
    (hleft : ∀ x ∈ left.stream.appender.listeners.registered,
      x ∈ l.stream.appender.listeners.registered ∧ key ≠ some x.key) :
    ({ p.setListener 0 none with
        stream := some left
        health := p.health.remove p.streamComponent } : Partition).Watching id left none ∧
      p.SameStaff { p.setListener 0 none with
        stream := some left
        health := p.health.remove p.streamComponent } := by
  refine ⟨⟨⟨h.number, ?_, fun x hx => ?_, ?_⟩, rfl, hcollected⟩, rfl, rfl, rfl, ?_⟩
  · show p.steps.set 0 _ = _
    rw [h.steps]
    rfl
  · rw [Listeners.known_of_collected hcollected] at hx
    obtain ⟨hmem, hkey⟩ := hleft x hx
    obtain ⟨hprocessor, hown⟩ := h.reports x (List.mem_append_left _ hmem)
    exact ⟨hprocessor, fun hcomponent => absurd (hown hcomponent) hkey⟩
  · show ((p.health.remove p.streamComponent).status p.streamComponent).isSome = _
    simp
  · show (p.health.remove p.streamComponent).status processorComponent = _
    rw [HealthMonitor.status_remove, if_neg p.streamComponent_ne.symm]

theorem closeStream_watching (h : p.Watching id l none)
    (hcall : (if l.stream.state = .closed then (StepOutcome.done (.ok ()), p)
      else awaitStream ⟨.prepare, 0⟩ term (l.request .close).1 (l.request .close).2 p)
        = (outcome, q)) :
    p.SameStaff q ∧ ∃ m, q.Watching id m none := by
  split at hcall
  · simp only [Prod.mk.injEq] at hcall
    obtain ⟨rfl, rfl⟩ := hcall
    exact ⟨.refl p, l, h⟩
  · obtain ⟨hawaited, m, after, hm, hafter, -⟩ :=
      awaitStream_watching (h.request .close) rfl hcall
    exact ⟨hawaited, m, hafter rfl ▸ hm⟩

/-- For an inactive role the stream is no longer watched before it is closed. -/
theorem prepareStream_watching (h : p.Watching id l key)
    (hcall : prepareStream ⟨.prepare, 0⟩ key term target p = (outcome, q)) :
    p.SameStaff q ∧ ∃ m after, q.Watching id m after ∧
      (target ≠ .inactive → outcome = .done (.ok ())) ∧ (target = .inactive → after = none) := by
  unfold prepareStream at hcall
  split at hcall
  · next hactive =>
    simp only [Prod.mk.injEq] at hcall
    obtain ⟨rfl, rfl⟩ := hcall
    refine ⟨.refl p, l, key, h, fun _ => rfl, ?_⟩
    rintro rfl
    simp [Role.isActive] at hactive
  · next hinactive =>
    have hinactive : target = .inactive := by simpa [Role.isActive] using hinactive
    have hclosed : p.SameStaff q ∧ ∃ m, q.Watching id m none := by
      rw [h.stream] at hcall
      cases key with
      | none =>
        obtain ⟨hleft, hsame⟩ := h.leave l h.collected fun x hx => ⟨hx, by simp⟩
        obtain ⟨hclosed, hm⟩ := closeStream_watching hleft hcall
        exact ⟨hsame.trans hclosed, hm⟩
      | some key =>
        obtain ⟨hleft, hsame⟩ := h.leave (onListeners l (·.remove key)) h.collected
          fun x hx => by
            obtain ⟨hmem, hne⟩ := Listeners.mem_remove.1 hx
            exact ⟨hmem, by simpa using hne.symm⟩
        obtain ⟨hclosed, hm⟩ := closeStream_watching hleft hcall
        exact ⟨hsame.trans hclosed, hm⟩
    obtain ⟨hsame, m, hm⟩ := hclosed
    exact ⟨hsame, m, none, hm, fun hactive => absurd hinactive hactive, fun _ => rfl⟩

theorem installStream_watching (h : p.Watching id l key)
    (hcall : installStream ⟨.install, 0⟩ term target p = (outcome, q)) :
    p.SameStaff q ∧ ∃ m after, q.Watching id m after ∧
      (target = .inactive → outcome = .done (.ok ()) ∧ after = key) ∧
      (target ≠ .inactive → outcome = .done (.ok ()) → after.isSome = true) := by
  unfold installStream at hcall
  split at hcall
  · next hinactive =>
    simp only [Prod.mk.injEq] at hcall
    obtain ⟨rfl, rfl⟩ := hcall
    refine ⟨.refl p, l, key, h, fun _ => ⟨rfl, rfl⟩, fun hactive => ?_⟩
    exact absurd (by simpa [Role.isActive] using hinactive) hactive
  · next hactive =>
    rw [h.stream] at hcall
    obtain ⟨hawaited, m, after, hm, -, hsome⟩ :=
      awaitStream_watching (h.request .openUp) rfl hcall
    refine ⟨hawaited, m, after, hm, ?_, fun _ => hsome rfl⟩
    rintro rfl
    simp [Role.isActive] at hactive

/-! ## The processor step -/

theorem closeProcessor_staffed (h : p.Staffed report) :
    p.SameStream (closeProcessor.run p).2 ∧ (closeProcessor.run p).2.Staffed report ∧
      (closeProcessor.run p).2.processor = none ∧
      (closeProcessor.run p).2.factory.attempts = p.factory.attempts := by
  unfold Attempt.run closeProcessor
  split
  · next hnone => exact ⟨.refl p, h, hnone, rfl⟩
  · next pr hpr =>
    obtain ⟨-, rfl⟩ := h.held (by rw [hpr]; rfl)
    have hstream : (p.health.remove processorComponent).status p.streamComponent
        = p.health.status p.streamComponent := by
      rw [HealthMonitor.status_remove, if_neg p.streamComponent_ne]
    have hnone : (p.health.remove processorComponent).status processorComponent = none := by simp
    dsimp only
    split
    · exact ⟨⟨⟨rfl, rfl⟩, rfl, hstream⟩, ⟨fun hsome => by simp [note] at hsome, fun _ => hnone⟩,
        rfl, rfl⟩
    · exact ⟨⟨⟨rfl, rfl⟩, rfl, hstream⟩, ⟨fun hsome => by simp [note] at hsome, fun _ => hnone⟩,
        rfl, rfl⟩

theorem buildProcessor_staffed (p : Partition) (term : Nat) (target : Role) :
    p.SameStream ((buildProcessor term target).run p).2 ∧
      ((buildProcessor term target).run p).2.processor = p.processor ∧
      ((buildProcessor term target).run p).2.health = p.health ∧
      ((buildProcessor term target).run p).2.factory.attempts = p.factory.attempts + 1 := by
  unfold Attempt.run buildProcessor
  dsimp only
  split <;> exact ⟨⟨⟨rfl, rfl⟩, rfl, rfl⟩, rfl, rfl, rfl⟩

/-- The end of an install is reported, whatever was known before. -/
theorem endInstall_staffed (p : Partition) (term : Nat) (target : Role) (pr : Processor)
    (opened : Except LogError Unit) {answer : Except LogError Unit}
    (h : (endInstall term target pr opened).run p = (answer, q)) :
    p.SameStream q ∧ q.Staffed (Health.ofInstall answer) ∧
      q.factory.attempts = p.factory.attempts := by
  have hstream (health : Health) : (p.health.report processorComponent health).status
      p.streamComponent = p.health.status p.streamComponent := by
    rw [HealthMonitor.status_report, if_neg p.streamComponent_ne]
  have hstatus (health : Health) :
      (p.health.report processorComponent health).status processorComponent = some health := by simp
  unfold Attempt.run endInstall at h
  split at h
  · simp only [Prod.mk.injEq] at h
    obtain ⟨rfl, rfl⟩ := h
    exact ⟨⟨⟨rfl, rfl⟩, rfl, hstream _⟩, ⟨fun _ => ⟨hstatus _, rfl⟩, fun hnone => by simp at hnone⟩,
      rfl⟩
  · simp only [Attempt.run, failInstall, Prod.mk.injEq] at h
    obtain ⟨rfl, rfl⟩ := h
    exact ⟨⟨⟨rfl, rfl⟩, rfl, hstream _⟩, ⟨fun hsome => by simp at hsome, fun _ => hstatus _⟩, rfl⟩

theorem failInstall_staffed (p : Partition) (term : Nat) (target : Role) (cause : LogError) :
    p.SameStream ((failInstall term target cause).run p).2 ∧
      ((failInstall term target cause).run p).2.Staffed
        (Health.ofInstall ((failInstall term target cause).run p).1) := by
  refine ⟨⟨⟨rfl, rfl⟩, rfl, ?_⟩, fun hsome => by simp [Attempt.run, failInstall] at hsome, fun _ => ?_⟩
  · simp [Attempt.run, failInstall, p.streamComponent_ne]
  · simp [Attempt.run, failInstall, Health.ofInstall]

/-- What an install of the processor step comes to: none was due, or one ended, or one goes on. -/
inductive Installed (p : Partition) (report : Option Health) (q : Partition) : StepOutcome → Prop where
  | kept (answer : Except LogError Unit) (ha : q.factory.attempts = p.factory.attempts)
    (hs : q.Staffed report) : Installed p report q (.done answer)
  | ended (answer : Except LogError Unit) (ha : q.factory.attempts = p.factory.attempts + 1)
    (hs : q.Staffed (Health.ofInstall answer)) : Installed p report q (.done answer)
  | begun (pr : Processor) (ha : q.factory.attempts = p.factory.attempts + 1)
    (hs : q.Staffed report) (hnone : q.processor = none) :
    Installed p report q (.held (.processor pr))

theorem installFresh_staffed (h : p.Staffed report) (hnone : p.processor = none)
    (hcall : installFresh term target p = (outcome, q)) :
    p.SameStream q ∧ Installed p report q outcome := by
  obtain ⟨hstream, hprocessor, hhealth, hattempts⟩ := buildProcessor_staffed p term target
  unfold installFresh at hcall
  generalize (buildProcessor term target).run p = built at hcall hstream hprocessor hhealth hattempts
  obtain ⟨answer, b⟩ := built
  dsimp only at hstream hprocessor hhealth hattempts
  cases answer with
  | error e =>
    simp only [Prod.mk.injEq] at hcall
    obtain ⟨rfl, rfl⟩ := hcall
    obtain ⟨hfailed, hs⟩ := failInstall_staffed b term target e
    exact ⟨hstream.trans hfailed, .ended _ hattempts hs⟩
  | ok pr =>
    have hends : ∀ opened, b.SameStream ((endInstall term target pr opened).run b).2 ∧
        Installed p report ((endInstall term target pr opened).run b).2
          (.done ((endInstall term target pr opened).run b).1) := fun opened => by
      obtain ⟨hended, hs, ha⟩ := endInstall_staffed b term target pr opened rfl
      exact ⟨hended, .ended _ (ha.trans hattempts) hs⟩
    dsimp only at hcall
    split at hcall
    · simp only [Prod.mk.injEq] at hcall
      obtain ⟨rfl, rfl⟩ := hcall
      obtain ⟨hended, hs⟩ := hends (.error (.processor "open failed"))
      exact ⟨hstream.trans hended, hs⟩
    · split at hcall
      · simp only [Prod.mk.injEq] at hcall
        obtain ⟨rfl, rfl⟩ := hcall
        refine ⟨hstream, .begun pr hattempts ⟨fun hsome => ?_, fun _ => ?_⟩ (hprocessor.trans hnone)⟩
        · rw [hprocessor, hnone] at hsome
          simp at hsome
        · rw [hhealth]
          exact h.vacant hnone
      · simp only [Prod.mk.injEq] at hcall
        obtain ⟨rfl, rfl⟩ := hcall
        obtain ⟨hended, hs⟩ := hends (.ok ())
        exact ⟨hstream.trans hended, hs⟩

theorem installProcessor_staffed (h : p.Staffed report)
    (hcall : installProcessor term target p = (outcome, q)) :
    p.SameStream q ∧ Installed p report q outcome ∧
      (target = .inactive → outcome = .done (.ok ()) ∧ q = p) := by
  obtain ⟨hstream, hclosed, hnone, hattempts⟩ := closeProcessor_staffed h
  unfold installProcessor at hcall
  split at hcall
  · simp only [Prod.mk.injEq] at hcall
    obtain ⟨rfl, rfl⟩ := hcall
    exact ⟨.refl p, .kept _ rfl h, fun _ => ⟨rfl, rfl⟩⟩
  · next hactive =>
    split at hcall
    · generalize closeProcessor.run p = closed at hcall hstream hclosed hnone hattempts
      obtain ⟨answer, c⟩ := closed
      cases answer with
      | error e =>
        simp only [Prod.mk.injEq] at hcall
        obtain ⟨rfl, rfl⟩ := hcall
        exact ⟨hstream, .kept _ hattempts hclosed, fun hinactive => absurd hinactive hactive⟩
      | ok done =>
        obtain ⟨hfresh, hinstalled⟩ := installFresh_staffed hclosed hnone hcall
        refine ⟨hstream.trans hfresh, ?_, fun hinactive => absurd hinactive hactive⟩
        dsimp only at hattempts
        cases hinstalled with
        | kept answer ha hs => exact .kept answer (ha.trans hattempts) hs
        | ended answer ha hs => exact .ended answer (ha.trans (by rw [hattempts])) hs
        | begun pr ha hs hp => exact .begun pr (ha.trans (by rw [hattempts])) hs hp
    · simp only [Prod.mk.injEq] at hcall
      obtain ⟨rfl, rfl⟩ := hcall
      exact ⟨.refl p, .kept _ rfl h, fun hinactive => absurd hinactive hactive⟩

theorem prepareProcessor_staffed (h : p.Staffed report)
    (hcall : finishStep (prepareProcessor target) p = (outcome, q)) :
    p.SameStream q ∧ q.Staffed report ∧ q.factory.attempts = p.factory.attempts ∧
      (target = .inactive → q.processor = none) ∧ ∃ answer, outcome = .done answer := by
  obtain ⟨hstream, hclosed, hnone, hattempts⟩ := closeProcessor_staffed h
  unfold finishStep at hcall
  generalize hprepare : (prepareProcessor target).run p = result at hcall
  obtain ⟨answer, after⟩ := result
  simp only [Prod.mk.injEq] at hcall
  obtain ⟨rfl, rfl⟩ := hcall
  unfold Attempt.run prepareProcessor at hprepare
  split at hprepare
  · rw [show closeProcessor.run p = _ from hprepare] at hstream hclosed hnone hattempts
    exact ⟨hstream, hclosed, hattempts, fun _ => hnone, answer, rfl⟩
  · next hkeep =>
    simp only [Prod.mk.injEq] at hprepare
    obtain ⟨rfl, rfl⟩ := hprepare
    refine ⟨.refl p, h, rfl, ?_, _, rfl⟩
    rintro rfl
    simpa using hkeep

end Partition

end PartitionLog
