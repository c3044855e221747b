import PartitionLog.Proofs.FlushWindow
import PartitionLog.Proofs.LeadingCommands

/-!
# The cycles of a run

A stream hands blocks to its storage in the cycles of its appender. `Run.cycles` lists the
appenders as these cycles find them: one cycle where a single one is asked for, and all that there
are where the appender is woken or stopped. A cycle hands over one block at most
(`Appender.handed`), and nothing else in a run appends to the storage (`Run.appends_after`).
-/

namespace PartitionLog

namespace Appender

variable {a b : Appender}

/-- The block that a cycle hands to the storage, if it comes to that. -/
def handed (a : Appender) : Option Bytes :=
  match a.buffer.pollBlock a.maxBlock with
  | none => none
  | some block =>
    if block.fragments.isEmpty then none
    else some (Frame.encodeRun a.nextPosition block.fragments)

theorem handed_cases {block : Bytes} (h : a.handed = some block) :
    ∃ polled, a.buffer.pollBlock a.maxBlock = some polled ∧ polled.fragments ≠ [] ∧
      block = Frame.encodeRun a.nextPosition polled.fragments := by
  unfold handed at h
  split at h
  · simp at h
  · next polled hpoll =>
    split at h
    · simp at h
    · next hne => exact ⟨polled, hpoll, mt List.isEmpty_iff.2 hne, (Option.some.inj h).symm⟩

/-- What the cycles of a drain find. -/
def drainCycles (a : Appender) : List Appender :=
  match _h : drainOnce.run a with
  | (.ok true, b) => a :: drainCycles b
  | (.ok false, _) | (.error _, _) => [a]
termination_by a.buffer.slots.length
decreasing_by exact length_drainOnce _h

theorem drainCycles_of_true (h : drainOnce.run a = (.ok true, b)) :
    a.drainCycles = a :: b.drainCycles := by
  rw [drainCycles]
  split
  · next c hrun =>
    rw [h] at hrun
    rw [(Prod.mk.inj hrun).2]
  · next hrun => simp [h] at hrun
  · next hrun => simp [h] at hrun

theorem drainCycles_of_ne (h : (drainOnce.run a).1 ≠ .ok true) : a.drainCycles = [a] := by
  rw [drainCycles]
  split
  · next hrun => simp [hrun] at h
  · rfl
  · rfl

/-- What the cycles of an appender find that is woken, -/
def wakeCycles (a : Appender) : List Appender := if a.isLive then a.roused.drainCycles else []

/-- and of one that is stopped. -/
def stopCycles (a : Appender) : List Appender := if a.isLive then a.drainCycles else []

/-- What an appender does by itself in one go: what the cycles find that it comes to, and how it is
left. -/
inductive Round (a : Appender) : List Appender → Appender → Prop
  | rest : Round a [] a
  | cycle : Round a (if a.isLive then [a] else []) a.cycle
  | wake : Round a a.wakeCycles a.wake
  | stop : Round a a.stopCycles a.stop

/-- What is true of an appender, and stays true as long as cycles go well, is true at each cycle of
a drain. -/
theorem forall_drainCycles {P : Appender → Prop} (hstart : P a)
    (hstep : ∀ b c, P b → drainOnce.run b = (.ok true, c) → P c) : ∀ c ∈ a.drainCycles, P c := by
  fun_induction drainCycles a with
  | case1 a b hrun ih => exact List.forall_mem_cons.2 ⟨hstart, ih (hstep a b hstart hrun)⟩
  | case2 a b hrun => exact List.forall_mem_singleton.2 hstart
  | case3 a e b hrun => exact List.forall_mem_singleton.2 hstart

/-- Every cycle of a drain finds an appender that follows from the first one. -/
theorem leads_of_drainCycles {R : Appender → Appender → Prop} [IsPreorder Appender R]
    (h : AtWork R) : ∀ c ∈ a.drainCycles, R a c := by
  refine forall_drainCycles (refl_of R a) fun b c hb hrun => ?_
  have hcycle := h.once b
  rw [hrun] at hcycle
  exact trans_of R hb hcycle

theorem leads_of_wakeCycles {R : Appender → Appender → Prop} [IsPreorder Appender R]
    (h : AtWork R) : ∀ c ∈ a.wakeCycles, R a c := by
  intro c hc
  unfold wakeCycles at hc
  split at hc
  · refine trans_of R ?_ (leads_of_drainCycles h c hc)
    unfold roused
    split
    · exact h.look a
    · exact h.answer a
  · simp at hc

theorem leads_of_stopCycles {R : Appender → Appender → Prop} [IsPreorder Appender R]
    (h : AtWork R) : ∀ c ∈ a.stopCycles, R a c := by
  intro c hc
  unfold stopCycles at hc
  split at hc
  · exact leads_of_drainCycles h c hc
  · simp at hc

end Appender

/-! ## Counting appends -/

namespace Storage

variable {s t : Storage} {α : Type}

/-- How often a block was handed over. -/
def appends (s : Storage) : Nat := (s.faults .append).used

theorem appends_of_append {block : Bytes} {r : Except LogError Nat}
    (h : (append block).run s = (r, t)) : t.appends = s.appends + 1 := by
  rw [appends, append_faults h]
  rfl

def SameAppends (s t : Storage) : Prop := t.appends = s.appends

instance : IsPreorder Storage SameAppends where
  refl _ := rfl
  trans _ _ _ h h' := h'.trans h

/-- No other call counts as one. -/
theorem sameAppends_of_call {call : StorageCall} {x : Attempt Storage α} (hcall : call ≠ .append)
    (hx : x.Leads SameRules) : Attempt.Leads SameAppends (do allow call; x) := by
  intro s
  rw [SameAppends, appends, faults_of_call hx (Prod.eta _).symm]
  exact congrArg Schedule.used (if_neg hcall.symm)

theorem sameAppends_flush : flush.Leads SameAppends :=
  sameAppends_of_call (by decide) flushMedium_rules

theorem sameAppends_truncate (address : Nat) : (truncate address).Leads SameAppends :=
  sameAppends_of_call (by decide) (truncateMedium_rules address)

theorem atStorage_sameAppends : IndexedLog.AtStorage SameAppends where
  openUp := sameAppends_of_call (by decide) openMedium_rules
  close := sameAppends_of_call (by decide) closeMedium_rules
  truncate := sameAppends_truncate
  endAddress := sameAppends_of_call (by decide) endMedium_rules
  read h := congrArg Schedule.used (h.others .append (by decide))
  save _ _ := rfl

end Storage

namespace Appender

variable {a b : Appender}

def appends (a : Appender) : Nat := a.log.storage.appends

theorem settleBlock_appends {r : Except LogError Unit} (h : settleBlock.run a = (r, b)) :
    b.appends = a.appends := by
  obtain ⟨-, -, rfl⟩ | ⟨-, t, ht, hends⟩ := settleBlock_cases h
  · rfl
  · have hflush := Storage.sameAppends_flush a.log.storage
    rw [ht] at hflush
    obtain ⟨-, rfl⟩ | ⟨e, -, rfl⟩ := hends
    · exact hflush
    · exact hflush

theorem rollBack_appends {address : Nat} {cause : LogError} {r : Except LogError Unit}
    (h : (rollBack address cause).run a = (r, b)) : b.appends = a.appends := by
  have hcut := Storage.sameAppends_truncate address a.log.storage
  obtain ⟨e, t, -, ⟨ht, rfl⟩ | ⟨e', ht, rfl⟩⟩ := rollBack_spec h
  · rw [ht] at hcut
    exact hcut
  · rw [ht] at hcut
    exact hcut

/-- From `a` to `b` the storage was asked to append this block, and then no other. -/
def Hands (block : Bytes) (a b : Appender) : Prop :=
  ∃ r t, (Storage.append block).run a.log.storage = (r, t) ∧ t.SameAppends b.log.storage

theorem Hands.appends {block : Bytes} (h : a.Hands block b) : b.appends = a.appends + 1 := by
  obtain ⟨r, t, ht, hsame⟩ := h
  exact hsame.trans (Storage.appends_of_append ht)

theorem storeBlock_hands {block : Bytes} {r : Except LogError Nat}
    (h : (storeBlock block).run a = (r, b)) : a.Hands block b := by
  obtain ⟨e, cause, t, ht, -, rfl⟩ | ⟨address, t, ht, hsettled⟩ := storeBlock_cases h
  · exact ⟨_, t, ht, refl_of Storage.SameAppends t⟩
  · refine ⟨_, t, ht, ?_⟩
    obtain ⟨hsettle, -⟩ | ⟨cause, c, e, hsettle, hroll, -⟩ := hsettled
    · exact settleBlock_appends hsettle
    · exact (rollBack_appends hroll).trans (settleBlock_appends hsettle)

theorem writeBlock_hands {fragments : List Bytes} {r : Except LogError Unit}
    (h : (writeBlock fragments).run a = (r, b)) :
    a.Hands (Frame.encodeRun a.nextPosition fragments) b := by
  obtain ⟨e, hstore, -⟩ | ⟨address, c, log, hstore, hnote, hends⟩ := writeBlock_cases h
  · exact storeBlock_hands hstore
  · have hnoted : log.storage = c.log.storage := by
      obtain ⟨-, ⟨e, -, -, rfl⟩ | ⟨index, -, -, rfl⟩⟩ | ⟨-, -, rfl⟩ :=
        IndexedLog.noteBlock_cases hnote
      · rfl
      · rfl
      · rfl
    have hkept : b.log.storage = c.log.storage := by
      obtain ⟨e, -, rfl⟩ | ⟨-, rfl⟩ := hends
      · exact hnoted
      · exact hnoted
    obtain ⟨r, t, ht, hsame⟩ := storeBlock_hands hstore
    exact ⟨r, t, ht, hkept ▸ hsame⟩

/-- A cycle that has a block to hand over appends it, and one that has none leaves the storage. -/
theorem drainOnce_hands {r : Except LogError Bool} (h : drainOnce.run a = (r, b)) :
    (a.handed = none → b.log.storage = a.log.storage) ∧
      ∀ block, a.handed = some block → a.Hands block b := by
  obtain ⟨hpoll, -, rfl⟩ | ⟨polled, hpoll, ⟨hempty, -, rfl⟩ | ⟨hne, hends⟩⟩ := drainOnce_runs h
  · exact ⟨fun _ => rfl, by simp [handed, hpoll]⟩
  · exact ⟨fun _ => rfl, by simp [handed, hpoll, hempty]⟩
  · refine ⟨by simp [handed, hpoll, hne], fun block hblock => ?_⟩
    obtain rfl : Frame.encodeRun a.nextPosition polled.fragments = block := by
      simpa [handed, hpoll, hne] using hblock
    obtain ⟨e, -, hwrite⟩ | ⟨c, -, hwrite, rfl⟩ := hends
    · exact writeBlock_hands hwrite
    · have hwritten : a.Hands _ c := writeBlock_hands hwrite
      exact hwritten

/-- The blocks that some cycles hand over. -/
def handedOver (cycles : List Appender) : List Bytes := cycles.filterMap handed

theorem handedOver_append (cycles more : List Appender) :
    handedOver (cycles ++ more) = handedOver cycles ++ handedOver more :=
  List.filterMap_append

theorem handedOver_singleton (a : Appender) : handedOver [a] = a.handed.toList := by
  cases h : a.handed with
  | none => exact List.filterMap_cons_none h
  | some block => exact List.filterMap_cons_some h

/-- A cycle hands over the one block or none. -/
theorem drainOnce_appends {r : Except LogError Bool} (h : drainOnce.run a = (r, b)) :
    b.appends = a.appends + (handedOver [a]).length := by
  obtain ⟨hleaves, hhands⟩ := drainOnce_hands h
  rw [handedOver_singleton]
  cases hhanded : a.handed with
  | none => exact congrArg Storage.appends (hleaves hhanded)
  | some block => exact (hhands block hhanded).appends

theorem drain_appends (a : Appender) :
    (drain a).2.appends = a.appends + (handedOver a.drainCycles).length := by
  fun_induction drain a with
  | case1 a b h ih =>
    rw [drainCycles_of_true h, ← List.singleton_append, handedOver_append, List.length_append, ih,
      drainOnce_appends h, Nat.add_assoc]
  | case2 a b h =>
    rw [drainCycles_of_ne (by simp [h])]
    exact drainOnce_appends h
  | case3 a e b h =>
    rw [drainCycles_of_ne (by simp [h])]
    have honce := drainOnce_appends h
    exact honce

theorem cycle_appends (a : Appender) :
    a.cycle.appends = a.appends + (handedOver (if a.isLive then [a] else [])).length := by
  unfold cycle
  split
  · split
    · next hrun => exact drainOnce_appends hrun
    · next hrun =>
      have honce := drainOnce_appends hrun
      exact honce
  · rfl

theorem wake_appends (a : Appender) :
    a.wake.appends = a.appends + (handedOver a.wakeCycles).length := by
  unfold wakeCycles
  cases hlive : a.isLive with
  | false =>
    rw [wake_of_idle hlive]
    rfl
  | true =>
    have hdrained : a.wake.appends = (drain a.roused).2.appends := by
      rcases wake_of_live hlive with hwake | hwake
      · rw [hwake]
      · rw [hwake]
        rfl
    have hroused : a.roused.appends = a.appends := congrArg (·.storage.appends) (roused_spec a).2.1
    rw [hdrained, drain_appends, hroused]
    rfl

theorem stop_appends (a : Appender) :
    a.stop.appends = a.appends + (handedOver a.stopCycles).length := by
  unfold stopCycles
  cases hlive : a.isLive with
  | false =>
    unfold stop
    rw [hlive]
    rfl
  | true =>
    have hfinish : a.finishUp.appends = (drain a).2.appends := by
      obtain hfailed | ⟨b, r, t, hdrained, ht, hends⟩ := finishUp_cases a
      · rw [hfailed]
      · have hflush := Storage.sameAppends_flush b.log.storage
        rw [ht] at hflush
        rw [hdrained]
        obtain ⟨-, hb⟩ | ⟨e, -, hb⟩ := hends
        · rw [hb]
          exact hflush
        · rw [hb]
          exact hflush
    have hstop : a.stop.appends = a.finishUp.appends := by
      unfold stop
      rw [hlive]
      rfl
    rw [hstop, hfinish, drain_appends]
    rfl

theorem Round.appends {cycles : List Appender} (h : a.Round cycles b) :
    b.appends = a.appends + (handedOver cycles).length := by
  cases h with
  | rest => rfl
  | cycle => exact cycle_appends a
  | wake => exact wake_appends a
  | stop => exact stop_appends a

end Appender

namespace Run

open Appender

variable {u : Run} {actions : List Action} {a : Appender}

/-- What the cycles find that an action comes to. -/
def cyclesOf (u : Run) : Action → List Appender
  | .drain => if u.appender.isLive then [u.appender] else []
  | .wake => u.appender.wakeCycles
  | .advance patient => ((u.lifecycle.toStop patient).map stopCycles).getD []
  | _ => []

/-- What the cycles of a run find. -/
def cycles (u : Run) : List Action → List Appender
  | [] => []
  | action :: rest => u.cyclesOf action ++ (u.step action).cycles rest

theorem after_append (u : Run) (actions more : List Action) :
    u.after (actions ++ more) = (u.after actions).after more := List.foldl_append ..

theorem cycles_append (u : Run) (actions more : List Action) :
    u.cycles (actions ++ more) = u.cycles actions ++ (u.after actions).cycles more := by
  induction actions generalizing u with
  | nil => rfl
  | cons action rest ih =>
    rw [List.cons_append, cycles, cycles, ih, List.append_assoc]
    rfl

theorem mem_cycles (h : a ∈ u.cycles actions) :
    ∃ before action later, actions = before ++ action :: later ∧
      a ∈ (u.after before).cyclesOf action := by
  induction actions generalizing u with
  | nil => simp [cycles] at h
  | cons action rest ih =>
    rcases List.mem_append.1 h with h | h
    · exact ⟨[], action, rest, rfl, h⟩
    · obtain ⟨before, other, later, rfl, hmem⟩ := ih h
      exact ⟨action :: before, other, later, rfl, hmem⟩

/-- What a cycle finds follows from the appender of the run. -/
theorem leads_of_cyclesOf {R : Appender → Appender → Prop} [IsPreorder Appender R]
    (hwork : AtWork R) (hcommand : AtCommand R) {action : Action} (h : a ∈ u.cyclesOf action) :
    R u.appender a := by
  unfold cyclesOf at h
  split at h
  · split at h
    · obtain rfl := List.mem_singleton.1 h
      exact refl_of R _
    · simp at h
  · exact leads_of_wakeCycles hwork a h
  · next patient =>
    cases hnext : u.lifecycle.advance patient with
    | none => simp [Lifecycle.toStop, hnext] at h
    | some next =>
      obtain ⟨hnone, -⟩ | ⟨b, hstop, hbefore, -⟩ := Lifecycle.advance_stops hcommand hnext
      · simp [hnone] at h
      · rw [hstop] at h
        exact trans_of R hbefore (leads_of_stopCycles hwork a h)
  · simp at h

theorem request_appender (command : Command) :
    (u.act (.request command)).appender = u.appender :=
  congrArg LogStream.appender (u.lifecycle.request_stream command)

theorem advance_appender {next : Lifecycle} {patient : Bool}
    (h : u.lifecycle.advance patient = some next) :
    (u.act (.advance patient)).appender = next.stream.appender := by
  simp only [act, h]
  split
  · rfl
  · rfl

/-- Where commands lead along a relation, and so does what becomes of the buffer, an action does so
but for what the appender does by itself. -/
theorem act_round {R : Appender → Appender → Prop} [IsPreorder Appender R] (hcommand : AtCommand R)
    (hbuffer : ∀ (a : Appender) buffer, R a { a with buffer := buffer }) (action : Action)
    (hstorage : action.Tears → ∀ (a : Appender) t, R a (a.withStorage t)) :
    ∃ b c, R u.appender b ∧ b.Round (u.cyclesOf action) c ∧ R c (u.act action).appender := by
  have hrest {v : Run} (h : R u.appender v.appender) :
      ∃ b c, R u.appender b ∧ b.Round [] c ∧ R c v.appender :=
    ⟨u.appender, u.appender, refl_of R _, .rest, h⟩
  cases action with
  | request command => exact hrest ((request_appender command).symm ▸ refl_of R u.appender)
  | advance patient =>
    simp only [cyclesOf]
    cases hnext : u.lifecycle.advance patient with
    | none =>
      simp only [act, Lifecycle.toStop, hnext]
      exact hrest (refl_of R u.appender)
    | some next =>
      rw [advance_appender hnext]
      obtain ⟨hnone, halong⟩ | ⟨b, hstop, hbefore, hafter⟩ := Lifecycle.advance_stops hcommand hnext
      · rw [hnone]
        exact ⟨u.appender, u.appender, refl_of R _, .rest, halong⟩
      · rw [hstop]
        exact ⟨b, b.stop, hbefore, .stop, hafter⟩
  | claim length =>
    simp only [act, cyclesOf]
    split
    · exact hrest (hbuffer u.appender _)
    · exact hrest (hbuffer u.appender _)
  | commit index payload =>
    simp only [act, cyclesOf]
    split
    · exact hrest (refl_of R u.appender)
    · split
      · exact hrest (hbuffer u.appender _)
      · exact hrest (refl_of R u.appender)
  | abort index =>
    simp only [act, cyclesOf]
    split
    · exact hrest (refl_of R u.appender)
    · exact hrest (hbuffer u.appender _)
  | drain => exact ⟨u.appender, u.appender.cycle, refl_of R _, .cycle, refl_of R _⟩
  | wake => exact ⟨u.appender, u.appender.wake, refl_of R _, .wake, refl_of R _⟩
  | raiseCommit position => exact hrest (refl_of R u.appender)
  | tear rest =>
    simp only [act, cyclesOf]
    split
    · exact hrest (hstorage trivial u.appender _)
    · exact hrest (refl_of R u.appender)

/-- Where the storage of a closed stream is not changed, an action hands over what its cycles do. -/
theorem step_appends {action : Action} (h : ¬ action.Tears) :
    (u.step action).appender.appends
      = u.appender.appends + (handedOver (u.cyclesOf action)).length := by
  obtain ⟨b, c, hbefore, hround, hafter⟩ := u.act_round
    (.of_storage Storage.atStorage_sameAppends) (fun _ _ => refl_of Storage.SameAppends _) action
    fun htears => absurd htears h
  have hb : b.appends = u.appender.appends := hbefore
  have hc : (u.step action).appender.appends = c.appends := hafter
  rw [hc, hround.appends, hb]

/-- The appends of a run are the blocks that its cycles hand over, and no others. -/
theorem appends_after (h : ∀ action ∈ actions, ¬ action.Tears) :
    (u.after actions).appender.appends
      = u.appender.appends + (handedOver (u.cycles actions)).length := by
  induction actions generalizing u with
  | nil => rfl
  | cons action rest ih =>
    have hstep := step_appends (u := u) (h action List.mem_cons_self)
    have hrest := ih (u := u.step action) fun other hmem => h other (List.mem_cons_of_mem _ hmem)
    rw [cycles, handedOver_append, List.length_append]
    show ((u.step action).after rest).appender.appends = _
    omega

end Run

end PartitionLog
