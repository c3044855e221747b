import Mathlib.Data.List.Nodup
import Mathlib.Data.List.Range
import PartitionLog.Proofs.RoleChanges

/-!
# What processors were built for

`builds` reads off the events which processors were built, each with its mode. What a change to
`target` builds is for the target, and what was there before keeps its mode (`Since`); every turn of
a custody keeps this (`Turn.since`). A change to the leader that fails may leave its processor to a
role that is not the leader's: such processors are stranded. While a follower or a candidate is
recorded, the processor that is held replays unless it is one of these (`Settled`), and both ends of
a change keep it so (`Settled.succeeded`, `Settled.failed`).
-/

namespace PartitionLog

namespace PartitionEvent

/-- The processors that were built, each with the mode that it was built for. -/
def builds : List PartitionEvent → List (Nat × ProcessingMode)
  | .building _ mode _ _ :: .processorOpened n _ :: rest => (n, mode) :: builds rest
  | _ :: rest => builds rest
  | [] => []

theorem builds_append_other (events : List PartitionEvent) {event : PartitionEvent}
    (h : ∀ n paused, event ≠ .processorOpened n paused) :
    builds (events ++ [event]) = builds events := by
  fun_induction builds events with
  | case1 _ mode _ _ n _ rest ih => rw [List.cons_append, List.cons_append, builds, ih]
  | case2 first rest hno ih =>
    rw [List.cons_append, builds, ih]
    intro _ _ _ _ n paused more hfirst hrest
    cases rest with
    | nil =>
      simp only [List.nil_append, List.cons.injEq] at hrest
      exact h _ _ hrest.1
    | cons second rest =>
      simp only [List.cons_append, List.cons.injEq] at hrest
      exact hno _ _ _ _ _ _ _ hfirst (by rw [hrest.1])
  | case3 =>
    rw [List.nil_append, builds, builds]
    simp

theorem builds_append_build (events : List PartitionEvent) (partition term n : Nat)
    (mode : ProcessingMode) (stream : Option String) (paused : Bool) :
    builds (events ++ [.building partition mode term stream, .processorOpened n paused])
      = builds events ++ [(n, mode)] := by
  fun_induction builds events with
  | case1 _ mode _ _ n _ rest ih =>
    rw [List.cons_append, List.cons_append, builds, ih, List.cons_append]
  | case2 first rest hno ih =>
    rw [List.cons_append, builds, ih]
    intro _ _ _ _ k p more hfirst hrest
    cases rest with
    | nil => simp at hrest
    | cons second rest =>
      simp only [List.cons_append, List.cons.injEq] at hrest
      exact hno _ _ _ _ _ _ _ hfirst (by rw [hrest.1])
  | case3 => rfl

end PartitionEvent

open PartitionEvent (builds builds_append_other builds_append_build)

/-! ## Modes of processors -/

namespace Custody

variable {target : Role} {c d e : Custody}

/-- The processors that were built have the numbers from 0 on. -/
def Numbered (c : Custody) : Prop := (builds c.events).map Prod.fst = List.range c.built

theorem Numbered.mode_unique (h : c.Numbered) {n : Nat} {mode other : ProcessingMode}
    (hm : (n, mode) ∈ builds c.events) (ho : (n, other) ∈ builds c.events) : mode = other := by
  have hnodup : ((builds c.events).map Prod.fst).Nodup := h ▸ List.nodup_range
  have hsame := List.inj_on_of_nodup_map hnodup hm ho rfl
  exact (Prod.mk.inj hsame).2

theorem Numbered.lt_built (h : c.Numbered) {n : Nat} {mode : ProcessingMode}
    (hm : (n, mode) ∈ builds c.events) : n < c.built := by
  have hmem : n ∈ (builds c.events).map Prod.fst := List.mem_map_of_mem hm
  rw [h] at hmem
  exact List.mem_range.1 hmem

theorem Turn.le_built (h : c.Turn target d) : c.built ≤ d.built := by
  cases h with
  | engage => exact Nat.le_succ _
  | _ => exact Nat.le_refl _

theorem Turns.le_built (h : c.Turns target d) : c.built ≤ d.built :=
  h.keep (fun hturn hle => Nat.le_trans hle hturn.le_built) (Nat.le_refl _)

/-- What a change to `target` came to, which began with `c`: whatever it built is for the target,
and the processor is one of these, or the one that was there. -/
structure Since (target : Role) (c d : Custody) : Prop where
  numbered : d.Numbered
  le_built : c.built ≤ d.built
  old : ∀ entry ∈ builds c.events, entry ∈ builds d.events
  processor : ∀ pr, d.processor = some pr → c.processor = some pr ∨
    (c.built ≤ pr.number ∧ (pr.number, .ofRole target) ∈ builds d.events)
  opening : ∀ pr, d.opening = some pr →
    c.built ≤ pr.number ∧ (pr.number, .ofRole target) ∈ builds d.events

theorem Since.refl (target : Role) (h : c.Numbered) (ho : c.opening = none) :
    c.Since target c where
  numbered := h
  le_built := Nat.le_refl _
  old _ hentry := hentry
  processor _ hpr := .inl hpr
  opening _ hpr := by simp [ho] at hpr

/-- Nothing was built, and no processor is there that was not in hand. -/
theorem Since.of_same (h : c.Since target d) (hbuilt : e.built = d.built)
    (hbuilds : builds e.events = builds d.events)
    (hp : ∀ pr, e.processor = some pr → d.processor = some pr ∨ d.opening = some pr)
    (ho : ∀ pr, e.opening = some pr → d.opening = some pr) : c.Since target e where
  numbered := by
    unfold Numbered
    rw [hbuilds, hbuilt]
    exact h.numbered
  le_built := hbuilt ▸ h.le_built
  old := hbuilds ▸ h.old
  processor pr hpr := by
    rw [hbuilds]
    rcases hp pr hpr with hheld | hopening
    · exact h.processor pr hheld
    · exact .inr (h.opening pr hopening)
  opening pr hpr := by
    rw [hbuilds]
    exact h.opening pr (ho pr hpr)

theorem Turn.since (ht : d.Turn target e) (h : c.Since target d) : c.Since target e := by
  cases ht with
  | aside event hevent =>
    refine h.of_same rfl (builds_append_other _ fun n paused heq => ?_) (fun _ => .inl) fun _ => id
    rw [heq] at hevent
    exact hevent
  | dismiss pr hpr =>
    exact h.of_same rfl (builds_append_other _ fun n paused heq => by simp at heq)
      (fun _ hnone => by simp at hnone) fun _ => id
  | engage traits partition term stream paused hp ho =>
    have hbuilds :=
      builds_append_build d.events partition term d.built (.ofRole target) stream paused
    refine ⟨?_, Nat.le_succ_of_le h.le_built, ?_, fun pr hpr => by simp at hpr, fun pr hpr => ?_⟩
    · unfold Numbered
      dsimp only
      rw [hbuilds, List.map_append, List.range_succ, h.numbered]
      rfl
    · intro entry hentry
      rw [hbuilds]
      exact List.mem_append_left _ (h.old entry hentry)
    · simp only [Option.some.injEq] at hpr
      subst hpr
      dsimp only
      rw [hbuilds]
      exact ⟨h.le_built, List.mem_append_right _ List.mem_cons_self⟩
  | install pr hp ho =>
    refine h.of_same rfl rfl (fun other hother => .inr ?_) fun _ hnone => by simp at hnone
    rw [ho, ← hother]
  | giveUp pr ho =>
    exact h.of_same rfl (builds_append_other _ fun n paused heq => by simp at heq) (fun _ => .inl)
      fun _ hnone => by simp at hnone

/-- `stranded` are processors that were built for a leader. While a follower or a candidate is
recorded, the processor that is held is one of these, or it replays. -/
structure Settled (role : Option Role) (stranded : List Nat) (c : Custody) : Prop where
  numbered : c.Numbered
  idle : c.opening = none
  below : ∀ pr, c.processor = some pr → pr.number < c.built
  leaders : ∀ n ∈ stranded, (n, .processing) ∈ builds c.events
  replays : role = some .follower ∨ role = some .candidate → ∀ pr, c.processor = some pr →
    ((pr.number, .replay) ∈ builds c.events ↔ pr.number ∉ stranded)

variable {role : Option Role} {stranded : List Nat}

/-- What was built before the change keeps its mode. -/
theorem Since.mode_iff (h : c.Since target d) (hc : c.Numbered) {n : Nat} (hn : n < c.built)
    (mode : ProcessingMode) : (n, mode) ∈ builds d.events ↔ (n, mode) ∈ builds c.events := by
  refine ⟨fun hm => ?_, h.old _⟩
  have hmem : n ∈ (builds c.events).map Prod.fst := hc ▸ List.mem_range.2 hn
  obtain ⟨⟨k, other⟩, hentry, hk⟩ := List.mem_map.1 hmem
  dsimp only at hk
  subst hk
  obtain rfl := h.numbered.mode_unique hm (h.old _ hentry)
  exact hentry

theorem Settled.lt_built (h : c.Settled role stranded) {n : Nat} (hn : n ∈ stranded) :
    n < c.built := h.numbered.lt_built (h.leaders n hn)

theorem Settled.below_since (h : c.Settled role stranded) (hs : c.Since target d) {pr : Processor}
    (hpr : d.processor = some pr) : pr.number < d.built := by
  rcases hs.processor pr hpr with hkept | ⟨-, hfresh⟩
  · exact Nat.lt_of_lt_of_le (h.below pr hkept) hs.le_built
  · exact hs.numbered.lt_built hfresh

/-- A processor that the role allows to be there fits the role, unless it was stranded. -/
theorem Settled.fit (h : c.Settled role stranded) (hs : c.Since target d) {pr : Processor}
    (hpr : d.processor = some pr) (hactive : target ≠ .inactive)
    (hsuited : shouldInstall role target = true → c.built ≤ pr.number) :
    (pr.number, .ofRole target) ∈ builds d.events ↔ pr.number ∉ stranded := by
  rcases hs.processor pr hpr with hkept | ⟨hle, hfresh⟩
  · have hlt := h.below pr hkept
    have hkeep : shouldInstall role target = false := by
      rw [← Bool.not_eq_true]
      exact fun hinstall => Nat.not_le.2 hlt (hsuited hinstall)
    rw [hs.mode_iff h.numbered hlt]
    -- only followers and candidates keep a processor, among themselves
    cases target with
    | inactive => exact absurd rfl hactive
    | leader => simp [shouldInstall] at hkeep
    | follower => exact h.replays (.inr (by simpa [shouldInstall] using hkeep)) pr hkept
    | candidate => exact h.replays (.inl (by simpa [shouldInstall] using hkeep)) pr hkept
  · exact ⟨fun _ hmem => Nat.not_lt.2 hle (h.lt_built hmem), fun _ => hfresh⟩

/-- After a change to an active role that succeeded. -/
theorem Settled.succeeded (h : c.Settled role stranded) (hs : c.Since target d)
    (ho : d.opening = none) (hsuited : target ≠ .inactive → ∀ pr, d.processor = some pr →
      shouldInstall role target = true → c.built ≤ pr.number) :
    d.Settled (some target) stranded where
  numbered := hs.numbered
  idle := ho
  below _ hpr := h.below_since hs hpr
  leaders n hn := hs.old _ (h.leaders n hn)
  replays hrole pr hpr := by
    simp only [Option.some.injEq] at hrole
    rcases hrole with rfl | rfl
    · exact h.fit hs hpr (by simp) (hsuited (by simp) pr hpr)
    · exact h.fit hs hpr (by simp) (hsuited (by simp) pr hpr)

/-- What a change to the leader that failed left of the processors that it built. -/
def strandedBy (base : Nat) (processor : Option Processor) :
    Option (Role × Except LogError Unit) → List Nat
  | some (.leader, .error _) => (processor.toList.map Processor.number).filter (base ≤ ·)
  | _ => []

theorem mem_strandedBy {base n : Nat} {processor : Option Processor} {cause : LogError} :
    n ∈ strandedBy base processor (some (target, .error cause)) ↔
      target = .leader ∧ base ≤ n ∧ ∃ pr, processor = some pr ∧ pr.number = n := by
  cases target <;> simp [strandedBy, and_comm]

/-- After a change that failed: what a change to the leader built may be stranded now. -/
theorem Settled.failed (h : c.Settled role stranded) (hs : c.Since target d) (ho : d.opening = none)
    (cause : LogError) :
    d.Settled role (stranded ++ strandedBy c.built d.processor (some (target, .error cause))) where
  numbered := hs.numbered
  idle := ho
  below _ hpr := h.below_since hs hpr
  leaders n hn := by
    rcases List.mem_append.1 hn with hold | hnew
    · exact hs.old _ (h.leaders n hold)
    · obtain ⟨rfl, hle, pr, hpr, rfl⟩ := mem_strandedBy.1 hnew
      rcases hs.processor pr hpr with hkept | ⟨-, hfresh⟩
      · exact absurd (h.below pr hkept) (Nat.not_lt.2 hle)
      · exact hfresh
  replays hrole pr hpr := by
    rw [List.mem_append, mem_strandedBy]
    rcases hs.processor pr hpr with hkept | ⟨hle, hfresh⟩
    · have hlt := h.below pr hkept
      rw [hs.mode_iff h.numbered hlt, h.replays hrole pr hkept]
      refine ⟨fun hold hno => hno.elim hold fun hnew => ?_, fun hno hold => hno (.inl hold)⟩
      exact Nat.not_lt.2 hnew.2.1 hlt
    · have hold : pr.number ∉ stranded := fun hmem => Nat.not_lt.2 hle (h.lt_built hmem)
      by_cases hleader : target = .leader
      · refine ⟨fun hreplay => ?_, fun hno => absurd (.inr ⟨hleader, hle, pr, hpr, rfl⟩) hno⟩
        have hmode := hs.numbered.mode_unique hreplay hfresh
        rw [hleader] at hmode
        simp [ProcessingMode.ofRole] at hmode
      · have hmode : ProcessingMode.ofRole target = .replay := by
          cases target with
          | leader => exact absurd rfl hleader
          | _ => rfl
        rw [hmode] at hfresh
        exact ⟨fun _ hno => hno.elim hold fun hnew => hleader hnew.1, fun _ => hfresh⟩

end Custody

end PartitionLog
