import PartitionLog.Proofs.Cycles
import PartitionLog.Proofs.Guarantees

/-!
# Why an appender halts

A block that is stored durably can be noted. The index refuses a block that does not follow its
last entry, but as long as there are no empty payloads and no snapshot, every entry is the place of
a record in the log, and the next block comes after all of them. Every cycle of a run finds an
appender of which this is true (`Holds.steady`), so it fails only where the storage does
(`Appender.Steady.notes`), and the listeners hear of no other failures (`Run.blocks_noted`).
-/

namespace PartitionLog

/-! ## Errors -/

namespace Attempt

variable {σ α β : Type} {P : LogError → Prop} {x : Attempt σ α}

/-- An error that the attempt ends with is one of these. -/
def FailsWith (P : LogError → Prop) (x : Attempt σ α) : Prop :=
  ∀ (s t : σ) (e : LogError), x.run s = (.error e, t) → P e

namespace FailsWith

theorem pure (a : α) : FailsWith P (Pure.pure a : Attempt σ α) := by
  intro s t e h
  simp at h

theorem outcome (x : Attempt σ α) : x.outcome.FailsWith P := by
  intro s t e h
  rw [run_outcome] at h
  simp at h

theorem mapError (x : Attempt σ α) {f : LogError → LogError} (hf : ∀ e, P (f e)) :
    (x.mapError f).FailsWith P := by
  intro s t e h
  unfold Attempt.run Attempt.mapError at h
  split at h
  · simp at h
  · simp only [Prod.mk.injEq, Except.error.injEq] at h
    exact h.1 ▸ hf _

theorem bind {f : α → Attempt σ β} (hx : x.FailsWith P) (hf : ∀ a, (f a).FailsWith P) :
    (x >>= f).FailsWith P := by
  intro s t e h
  rw [run_bind] at h
  split at h
  · exact hf _ _ _ _ h
  · next hrun =>
    simp only [Prod.mk.injEq, Except.error.injEq] at h
    exact h.1 ▸ hx _ _ _ hrun

end FailsWith

end Attempt

namespace Appender

open Attempt

variable {a b c : Appender} {payloads : List Bytes}

def BlamesStorage (e : LogError) : Prop := e.kind = .storageFault

theorem rollBack_fails (address : Nat) (cause : LogError) :
    (rollBack address cause).FailsWith BlamesStorage := by
  intro s t e h
  unfold Attempt.run rollBack at h
  split at h
  · simp only [Prod.mk.injEq, Except.error.injEq] at h
    exact h.1 ▸ rfl
  · simp only [Prod.mk.injEq, Except.error.injEq] at h
    exact h.1 ▸ rfl

theorem storeBlock_fails (block : Bytes) : (storeBlock block).FailsWith BlamesStorage := by
  refine .bind (.mapError _ fun _ => rfl) fun address => .bind (.outcome _) fun settled => ?_
  cases settled with
  | ok => exact .pure _
  | error e => exact .bind (rollBack_fails address e) fun _ => .pure _

/-! ## One cycle -/

/-- The appender keeps a log of these payloads, none of them empty, and is ready to go on with it.
-/
structure Steady (a : Appender) (payloads : List Bytes) : Prop where
  kept : a.Kept True payloads
  ready : a.Ready payloads
  whole : a.staleBlock = none

/-- What a cycle finds that can note what it stores: the last entry of the index is before the
block, and the cycle goes well. If it fails, then because of the storage. -/
structure Notes (a : Appender) : Prop where
  follows : ∀ bytes address c, a.handed = some bytes → (storeBlock bytes).run a = (.ok address, c) →
    (∀ last, c.log.index.last? = some last →
      last.position < a.nextPosition ∧ last.address < address) ∧
      (drainOnce.run a).1 = .ok true
  fails : ∀ e b, drainOnce.run a = (.error e, b) → e.kind = .storageFault

theorem storeBlock_ok {block : Bytes} {address : Nat} (hs : a.log.storage.Sound)
    (h : (storeBlock block).run a = (.ok address, b)) :
    address = a.stored.length ∧ b.log.index = a.log.index := by
  cases storeBlock_spec hs h with
  | durable => exact ⟨rfl, rfl⟩

/-- The entries of the index are places of records in the log, and the next block comes behind
them. -/
theorem Steady.last (h : a.Steady payloads) {last : IndexEntry}
    (hlast : a.log.index.last? = some last) :
    last.position < a.nextPosition ∧ last.address < a.stored.length := by
  have hsettled := h.kept.settled trivial h.ready
  have hmem : last ∈ a.log.index.entries := List.mem_of_getLast? hlast
  obtain ⟨r, hr, hposition, -⟩ := h.kept.lists trivial last hmem
  have hbefore := Frame.position_lt_of_mem (h.kept.filled trivial) hr
  have hbelow := hsettled.below last hmem
  rw [visible_of_none h.whole] at hbelow
  rw [hposition, Int.zero_add, ← hsettled.next] at hbefore
  exact ⟨hbefore, hbelow⟩

/-- Writing fails only where storing does. -/
theorem Steady.writeBlock_error (h : a.Steady payloads) {fragments : List Bytes} {e : LogError}
    (hrun : (writeBlock fragments).run a = (.error e, b)) :
    (storeBlock (Frame.encodeRun a.nextPosition fragments)).run a = (.error e, b) := by
  obtain ⟨e', hstore, he⟩ | ⟨address, c, log, hstore, hnote, ⟨e', he, -⟩ | ⟨hok, -⟩⟩ :=
    writeBlock_cases hrun
  · rw [hstore, Except.error.inj he]
  · -- the index takes the block
    obtain ⟨rfl, hindex⟩ := storeBlock_ok h.kept.sound hstore
    rw [he] at hnote
    obtain ⟨-, -, hrefused⟩ := IndexedLog.noteBlock_error hnote
    obtain ⟨last, hlast, hnot⟩ := BlockIndex.last_of_refused hrefused
    exact absurd (h.last (hindex ▸ hlast)) hnot
  · simp at hok

theorem Steady.notes (h : a.Steady payloads) : a.Notes where
  follows bytes address c hbytes hstore := by
    obtain ⟨rfl, hindex⟩ := storeBlock_ok h.kept.sound hstore
    refine ⟨fun last hlast => h.last (hindex ▸ hlast), ?_⟩
    obtain ⟨block, hpoll, hne, rfl⟩ := handed_cases hbytes
    obtain ⟨hnone, -, -⟩ | ⟨polled, hpolled, hends⟩ :=
      drainOnce_runs (Prod.eta (drainOnce.run a)).symm
    · simp [hnone] at hpoll
    · obtain rfl : polled = block := Option.some.inj (hpolled.symm.trans hpoll)
      obtain ⟨hnil, -, -⟩ | ⟨-, ⟨e, -, hwrite⟩ | ⟨d, hok, -, -⟩⟩ := hends
      · exact absurd hnil hne
      · have hfailed := h.writeBlock_error hwrite
        rw [hstore] at hfailed
        simp at hfailed
      · exact hok
  fails e b hrun := by
    obtain ⟨-, hr, -⟩ | ⟨block, -, ⟨-, hr, -⟩ | ⟨-, ⟨e', hr, hwrite⟩ | ⟨d, hr, -, -⟩⟩⟩ :=
      drainOnce_runs hrun
    · simp at hr
    · simp at hr
    · obtain rfl := Except.error.inj hr
      exact storeBlock_fails _ _ _ _ (h.writeBlock_error hwrite)
    · simp at hr

/-! ## The cycles of an appender -/

theorem Steady.drainCycles (h : a.Steady payloads) (hsize : (drain a).2.stored.length < 2 ^ 63) :
    ∀ c ∈ a.drainCycles, ∃ after, c.Steady after := by
  -- the size of the log is bounded at each cycle, since all the drain ends in the same log
  have hall : ∀ c ∈ a.drainCycles, (∃ after, c.Steady after) ∧ drain c = drain a := by
    refine forall_drainCycles ⟨⟨payloads, h⟩, rfl⟩ fun b c ⟨⟨now, hb⟩, hends⟩ hrun => ?_
    have hsmall : b.stored.length < 2 ^ 63 :=
      Nat.lt_of_le_of_lt (drain_grows b hb.kept.sound).stored.length_le (hends ▸ hsize)
    obtain ⟨after, hkept, hready, hwhole, -⟩ := drainOnce_ok hb.kept hb.ready hb.whole hsmall hrun
    exact ⟨⟨after, hkept, hready, hwhole⟩, (drain_of_moved hrun).symm.trans hends⟩
  exact fun c hc => (hall c hc).1

/-- What an appender does in one go that is steady if it is live. -/
theorem Round.steady {cycles : List Appender} (h : a.Round cycles b) (hs : a.log.storage.Sound)
    (hlive : a.isLive = true → a.Steady payloads) (hsize : b.stored.length < 2 ^ 63) :
    ∀ c ∈ cycles, ∃ after, c.Steady after := by
  intro c hc
  cases h with
  | rest => simp at hc
  | cycle =>
    split at hc
    · next hgoes =>
      obtain rfl := List.mem_singleton.1 hc
      exact ⟨payloads, hlive hgoes⟩
    · simp at hc
  | wake =>
    unfold wakeCycles at hc
    split at hc
    · next hgoes =>
      have hsteady := hlive hgoes
      obtain ⟨hstands, hlog, -, hstale⟩ := roused_spec a
      have hsame : a.Same a.roused := by
        unfold roused
        split
        · exact hsteady.kept.same_flags rfl rfl rfl rfl rfl fun _ => id
        · exact answerDoorbell_same hsteady.kept
      have hdrained : (drain a.roused).2.stored.length < 2 ^ 63 := by
        rcases wake_of_live hgoes with hwake | hwake
        · exact hwake ▸ hsize
        · rw [hwake] at hsize
          exact hsize
      have hroused : a.roused.Steady payloads :=
        ⟨hsteady.kept.same hsame, hsteady.ready.same hsame, hstale.trans hsteady.whole⟩
      exact hroused.drainCycles hdrained c hc
    · simp at hc
  | stop =>
    unfold stopCycles at hc
    split at hc
    · next hgoes =>
      have hstored : a.stop.stored = (drain a).2.stored := by
        rw [← stored_finishUp hs]
        unfold Appender.stop
        rw [hgoes]
        rfl
      exact (hlive hgoes).drainCycles (hstored ▸ hsize) c hc
    · simp at hc

end Appender

/-- A live appender that a step stops is that of the stream, and what the stop writes is all that
the step writes. -/
theorem Lifecycle.stops_live {l next : Lifecycle} {patient : Bool} {strict : Prop}
    {payloads : List Bytes} {a : Appender} (hk : l.stream.appender.Kept strict payloads)
    (hs : l.stream.In payloads l.stage) (hsize : l.stream.storage.stored.length < 2 ^ 63)
    (hnext : l.advance patient = some next) (hstop : l.toStop patient = some a)
    (hlive : a.isLive = true) :
    a = l.stream.appender ∧ next.stream.appender.stored = a.stop.stored := by
  have hruns := Appender.isRunning_of_isLive hlive
  have hopening {job : Job} {progress : Progress} (hc : l.current = some (job, progress))
      (hp : progress = .openingStorage ∨ progress = .startingUp) :
      l.stream.appender.isRunning = false := by
    have hstage : l.stage = .opening := by
      rcases hp with rfl | rfl
      · simp [stage, hc]
      · simp [stage, hc]
    rw [hstage] at hs
    exact hs.2
  unfold toStop at hstop
  rw [hnext] at hstop
  cases advance_cases hnext with
  | take hc => simp [hc] at hstop
  | work hc hworked =>
    simp only [hc] at hstop
    cases hworked with
    | storageFailed hrun =>
      obtain ⟨u, -, rfl⟩ := LogStream.openStorage_spec hk hrun
      simp only [Progress.toStop, hrun, Option.some.injEq] at hstop
      subst hstop
      exact absurd (hopening hc (.inl rfl)) hruns
    | startFailed hrun =>
      obtain ⟨b, rfl, -, -, -, hrests, -⟩ :=
        LogStream.startUp_spec hk (hopening hc (.inr rfl)) hsize hrun
      simp only [Progress.toStop, hrun, Option.some.injEq] at hstop
      subst hstop
      exact absurd hrests hruns
    | woundDown =>
      obtain rfl : l.stream.appender = a := by simpa [Progress.toStop] using hstop
      have hpath := (Appender.stop_grows hk.sound).path.trans hk.unsaved
      obtain ⟨isOpen, -, hsaved⟩ := LogStream.persist_spec (s := l.stream.settleClaims.2) hpath
        (Prod.eta _).symm
      refine ⟨rfl, ?_⟩
      show l.stream.windDown.2.appender.stored = _
      unfold LogStream.windDown
      exact congrArg (·.appender.stored) hsaved
    | settled =>
      obtain rfl : l.stream.appender = a := by simpa [Progress.toStop] using hstop
      exact ⟨rfl, rfl⟩
    | storageOpened hrun => simp [Progress.toStop, hrun] at hstop
    | started hrun => simp [Progress.toStop, hrun] at hstop
    | _ => simp [Progress.toStop] at hstop
  | release hc => simp [hc, Progress.toStop] at hstop
  | finish hc =>
    rcases hc with ⟨hc, -⟩ | hc
    · simp [hc, Progress.toStop] at hstop
    · simp [hc, Progress.toStop] at hstop

/-! ## What listeners are told -/

/-- Whether the storage is to blame, if it is a failure. -/
def Notice.BlamesStorage (notice : Notice) : Prop :=
  ∀ e, notice = .failure e → e.kind = .storageFault

namespace Appender

variable {a b : Appender}

/-- From `a` to `b` listeners were told of no failures but those of the storage. -/
def Tells (a b : Appender) : Prop :=
  ∃ told, b.listeners.delivered = a.listeners.delivered ++ told ∧
    ∀ delivery ∈ told, delivery.notice.BlamesStorage

theorem Tells.of_eq (h : b.listeners = a.listeners) : a.Tells b := ⟨[], by simp [h]⟩

instance : IsPreorder Appender Tells where
  refl _ := .of_eq rfl
  trans a b c := by
    rintro ⟨told, hab, hblames⟩ ⟨more, hbc, hmore⟩
    refine ⟨told ++ more, by rw [hbc, hab, List.append_assoc], ?_⟩
    exact List.forall_mem_append.2 ⟨hblames, hmore⟩

theorem tells_notify {notice : Notice} (h : b.listeners = a.listeners.notify notice)
    (hblames : notice.BlamesStorage) : a.Tells b := by
  refine ⟨a.listeners.registered.map (⟨·, notice⟩), by rw [h, Listeners.notify], ?_⟩
  intro delivery hmem
  obtain ⟨listener, -, rfl⟩ := List.mem_map.1 hmem
  exact hblames

theorem tells_halt {e : LogError} (h : e.kind = .storageFault) : a.Tells (a.halt e) :=
  tells_notify rfl fun _ hsame => Notice.failure.inj hsame ▸ h

theorem atCommand_tells : AtCommand Tells :=
  .of_log (fun _ _ => .of_eq rfl) (fun _ => .of_eq rfl) (fun _ _ => .of_eq rfl)
    (fun _ _ => .of_eq rfl) (fun _ _ _ _ => .of_eq rfl) fun a => by
      unfold announceRecovery
      split
      · exact tells_notify rfl (by simp [Notice.BlamesStorage])
      · exact .of_eq rfl

theorem tells_drainOnce {r : Except LogError Bool} (h : drainOnce.run a = (r, b)) : a.Tells b :=
  .of_eq (StandsAs.drainOnce h).listeners

theorem drain_tells (h : ∀ c ∈ a.drainCycles, c.Notes) : a.Tells (drain a).2 := by
  fun_induction drain a with
  | case1 a b hrun ih =>
    rw [drainCycles_of_true hrun] at h
    exact trans_of Tells (tells_drainOnce hrun) (ih fun c hc => h c (List.mem_cons_of_mem _ hc))
  | case2 a b hrun => exact tells_drainOnce hrun
  | case3 a e b hrun =>
    rw [drainCycles_of_ne (by simp [hrun])] at h
    have hfault := (h a List.mem_cons_self).fails e b hrun
    exact trans_of Tells (tells_drainOnce hrun) (tells_halt hfault)

theorem finishUp_tells (h : ∀ c ∈ a.drainCycles, c.Notes) : a.Tells a.finishUp := by
  have hdrain := drain_tells h
  obtain hfailed | ⟨b, r, t, hdrained, -, hends⟩ := finishUp_cases a
  · rwa [hfailed] at hdrain
  · rw [hdrained] at hdrain
    have hflushed : a.Tells (b.withStorage t) := trans_of Tells hdrain (.of_eq rfl)
    obtain ⟨-, hb⟩ | ⟨e, -, hb⟩ := hends
    · rwa [hb]
    · rw [hb]
      exact trans_of Tells hflushed (tells_halt rfl)

/-- Where every cycle can note what it stores, no other failures are told. -/
theorem Round.tells {cycles : List Appender} (h : a.Round cycles b)
    (hnotes : ∀ c ∈ cycles, c.Notes) : a.Tells b := by
  cases h with
  | rest => exact refl_of Tells a
  | cycle =>
    unfold Appender.cycle
    split
    · next hlive =>
      rw [if_pos hlive] at hnotes
      split
      · next hrun => exact tells_drainOnce hrun
      · next e c hrun =>
        exact trans_of Tells (tells_drainOnce hrun)
          (tells_halt ((hnotes a List.mem_cons_self).fails e c hrun))
    · exact refl_of Tells a
  | wake =>
    unfold wakeCycles at hnotes
    cases hlive : a.isLive with
    | false => exact .of_eq (by rw [wake_of_idle hlive])
    | true =>
      rw [hlive] at hnotes
      have hroused : a.Tells a.roused := .of_eq (roused_spec a).1.listeners
      have hdrained := trans_of Tells hroused (drain_tells hnotes)
      rcases wake_of_live hlive with hwake | hwake
      · rwa [hwake]
      · rw [hwake]
        exact trans_of Tells hdrained (.of_eq rfl)
  | stop =>
    unfold stopCycles at hnotes
    unfold Appender.stop
    cases hlive : a.isLive with
    | false => exact .of_eq rfl
    | true =>
      rw [hlive] at hnotes
      exact trans_of Tells (finishUp_tells hnotes) (.of_eq rfl)

end Appender

/-! ## Runs -/

namespace Run

open Appender

variable {s : LogStream} {initial payloads : List Bytes} {actions : List Action} {u : Run}

/-- Every cycle of an action finds an appender that is ready to go on with its log. -/
theorem Holds.steady (h : Holds True u payloads) {action : Action}
    (hsize : u.stored.length < 2 ^ 63) (hafter : (u.act action).stored.length < 2 ^ 63) :
    ∀ a ∈ u.cyclesOf action, ∃ after, a.Steady after := by
  have hsteady (hlive : u.appender.isLive = true) : u.appender.Steady payloads :=
    ⟨h.kept, h.stage.ready_of_live hlive, h.kept.live hlive⟩
  cases action with
  | drain => exact Round.cycle.steady h.kept.sound hsteady hafter
  | wake => exact Round.wake.steady h.kept.sound hsteady hafter
  | advance patient =>
    intro c hc
    simp only [cyclesOf] at hc
    cases hstop : u.lifecycle.toStop patient with
    | none => simp [hstop] at hc
    | some a =>
      rw [hstop] at hc
      cases hnext : u.lifecycle.advance patient with
      | none => simp [Lifecycle.toStop, hnext] at hstop
      | some next =>
        cases hlive : a.isLive with
        | false => simp [stopCycles, hlive] at hc
        | true =>
          obtain ⟨rfl, hstored⟩ := Lifecycle.stops_live h.kept h.stage hsize hnext hstop hlive
          have hwritten : (u.act (.advance patient)).stored = u.appender.stop.stored :=
            (congrArg Appender.stored (advance_appender hnext)).trans hstored
          exact Round.stop.steady h.kept.sound hsteady (hwritten ▸ hafter) c hc
  | _ => simp [cyclesOf]

theorem Within.split {before after : List Action} (h : u.Within (before ++ after)) :
    u.Within before ∧ (u.after before).Within after := by
  induction before generalizing u with
  | nil => exact ⟨h.stored_lt, h⟩
  | cons action rest ih =>
    obtain ⟨hsize, hfits, hrest⟩ := h
    obtain ⟨hbefore, hafter⟩ := ih hrest
    exact ⟨⟨hsize, hfits, hbefore⟩, hafter⟩

theorem step_tells {action : Action} (h : ∀ a ∈ u.cyclesOf action, a.Notes) :
    u.appender.Tells (u.step action).appender := by
  obtain ⟨b, c, hbefore, hround, hafter⟩ :=
    u.act_round atCommand_tells (fun _ _ => .of_eq rfl) action fun _ _ _ => .of_eq rfl
  exact trans_of Tells hbefore (trans_of Tells (hround.tells h) hafter)

theorem after_tells (h : ∀ a ∈ u.cycles actions, a.Notes) :
    u.appender.Tells (u.after actions).appender := by
  induction actions generalizing u with
  | nil => exact refl_of Tells u.appender
  | cons action rest ih =>
    obtain ⟨hfirst, hrest⟩ := List.forall_mem_append.1 h
    exact trans_of Tells (step_tells hfirst) (ih hrest)

/-- Without snapshot, on a log of payloads that are not empty: whatever fails and in whichever
order, whenever a cycle has stored its block, the last entry of the index lies before it, and the
cycle goes well. So a cycle fails only where the storage does, and listeners are told of no other
failures. -/
theorem blocks_noted (h : Begins s initial) (hfilled : ∀ x ∈ initial, x ≠ [])
    (hw : (start s initial).Within actions) (hwhole : ∀ action ∈ actions, ¬ action.Tears) :
    (∀ a ∈ (start s initial).cycles actions, a.Notes) ∧
      s.appender.Tells ((start s initial).after actions).appender := by
  have hstart : Good True (start s initial) initial := h.good fun _ => hfilled
  have hnotes : ∀ a ∈ (start s initial).cycles actions, a.Notes := by
    intro a ha
    obtain ⟨before, action, later, rfl, hmem⟩ := mem_cycles ha
    obtain ⟨hbefore, hsize, -, hafter⟩ := hw.split
    obtain ⟨payloads, hgood⟩ := hstart.run hbefore fun _ other hother =>
      hwhole other (List.mem_append_left _ hother)
    obtain ⟨now, hsteady⟩ := hgood.toHolds.steady hsize hafter.stored_lt a hmem
    exact hsteady.notes
  exact ⟨hnotes, after_tells hnotes⟩

/-- The stream in memory, with somebody who listens. -/
def watched : LogStream :=
  (inMemory [[1, 2]]).withAppender fun a =>
    { a with listeners := a.listeners.register ⟨.observer "watcher", none⟩ }

/-- The first cycle fails and leaves its block behind; after the restart the same block is stored
and noted. -/
theorem blocks_noted_watched :
    Begins watched [[1, 2]] ∧ (∀ x ∈ [[1, 2]], x ≠ ([] : Bytes)) ∧
      (start watched [[1, 2]]).Within restarted ∧ (∀ action ∈ restarted, ¬ action.Tears) ∧
      handedOver ((start watched [[1, 2]]).cycles restarted)
        = [Frame.encode 2 [7, 8, 9], Frame.encode 2 [7, 8, 9]] ∧
      ((start watched [[1, 2]]).after restarted).appender.listeners.delivered.map (·.notice)
        = [.failure (.rollbackFailed (.io .unavailable) 18 (.io .unavailable)), .recovered] ∧
      (∀ a ∈ (start watched [[1, 2]]).cycles restarted, a.Notes) ∧
      watched.appender.Tells ((start watched [[1, 2]]).after restarted).appender := by
  have hbegins : Begins watched [[1, 2]] :=
    ⟨⟨rfl, rfl, rfl, rfl, rfl, rfl⟩, trivial, rfl, by decide⟩
  have hwithin : (start watched [[1, 2]]).Within restarted := by decide +kernel
  exact ⟨hbegins, by decide, hwithin, whole_restarted, by decide +kernel, by decide +kernel,
    blocks_noted hbegins (by decide) hwithin whole_restarted⟩

end Run

end PartitionLog
