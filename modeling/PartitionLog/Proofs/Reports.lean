import PartitionLog.Health
import PartitionLog.Proofs.Lookup

/-!
# What listeners report to a health monitor

The status of a component is what was last reported on it, and reports on others do not matter. Only
the listeners that are `known`, because they are registered or were told something, make a notice a
report.
-/

namespace PartitionLog

namespace Listeners

/-- The listeners that are registered, and those that were told something. -/
def known (ls : Listeners) : List Listener := ls.registered ++ ls.delivered.map Delivery.listener

variable {ls : Listeners} {x y : Listener} {key : ListenerKey}

theorem known_notify (ls : Listeners) (notice : Notice) : (ls.notify notice).known ⊆ ls.known := by
  intro x hx
  simp only [known, notify, List.map_append, List.map_map, List.mem_append] at hx ⊢
  rcases hx with hx | hx | hx
  · exact .inl hx
  · exact .inr hx
  · obtain ⟨y, hy, rfl⟩ := List.mem_map.1 hx
    exact .inl hy

theorem known_of_collected (h : ls.delivered = []) : ls.known = ls.registered := by
  simp [known, h]

theorem mem_of_mem_register (hy : y ∈ (ls.register x).known) : y ∈ ls.known ∨ y = x := by
  unfold register at hy
  split at hy
  · exact .inl hy
  · simp only [known, List.mem_append, List.mem_singleton] at hy ⊢
    rcases hy with (hy | hy) | hy
    · exact .inl (.inl hy)
    · exact .inr hy
    · exact .inl (.inr hy)

theorem mem_remove : x ∈ (ls.remove key).registered ↔ x ∈ ls.registered ∧ x.key ≠ key := by
  simp [remove]

end Listeners

namespace HealthMonitor

variable {m : HealthMonitor} {component : String} {deliveries : List Delivery}

theorem lookup_place (component : String) (health : Health) (entries : List (String × Health))
    (other : String) : (place component health entries).lookup other
      = if other = component then some health else entries.lookup other := by
  induction entries with
  | nil => exact lookup_cons component health [] other
  | cons entry rest ih =>
    obtain ⟨name, status⟩ := entry
    unfold place
    split
    · exact lookup_cons component health _ other
    · split
      · next heq =>
        subst heq
        rw [lookup_cons, lookup_cons]
        split <;> rfl
      · next hne =>
        rw [lookup_cons, lookup_cons, ih]
        by_cases hother : other = name
        · simp [hother, Ne.symm hne]
        · simp [hother]

@[simp] theorem status_report (m : HealthMonitor) (component : String) (health : Health)
    (other : String) : (m.report component health).status other
      = if other = component then some health else m.status other :=
  lookup_place component health m.components other

@[simp] theorem status_register (m : HealthMonitor) (component other : String) :
    (m.register component).status other
      = if other = component then some .healthy else m.status other :=
  status_report m component .healthy other

@[simp] theorem status_remove (m : HealthMonitor) (component other : String) :
    (m.remove component).status other = if other = component then none else m.status other :=
  lookup_filter m.components component other

/-- What comes of a delivery is a report, and not the end of one. -/
theorem absorb_cases (m : HealthMonitor) (d : Delivery) :
    (m.absorb d = m ∧ d.listener.component = none) ∨
      ∃ component health, d.listener.component = some component ∧
        m.absorb d = m.report component health := by
  unfold absorb
  split
  · next hnone => exact .inl ⟨rfl, hnone⟩
  · next hcomponent _ => exact .inr ⟨_, _, hcomponent, rfl⟩
  · next hcomponent _ => exact .inr ⟨_, _, hcomponent, rfl⟩

/-- Reports on others do not matter. -/
theorem status_absorb_all (m : HealthMonitor)
    (h : ∀ d ∈ deliveries, d.listener.component ≠ some component) :
    (deliveries.foldl absorb m).status component = m.status component := by
  induction deliveries generalizing m with
  | nil => rfl
  | cons d rest ih =>
    have hrest := ih (m.absorb d) fun other hmem => h other (List.mem_cons_of_mem _ hmem)
    rw [List.foldl_cons, hrest]
    obtain ⟨hsame, -⟩ | ⟨name, health, hname, hreport⟩ := m.absorb_cases d
    · rw [hsame]
    · have hne : component ≠ name := by
        rintro rfl
        exact h d List.mem_cons_self hname
      rw [hreport, status_report, if_neg hne]

/-- No report ends the tracking of a component. -/
theorem isSome_status_absorb_all (h : (m.status component).isSome = true) :
    ((deliveries.foldl absorb m).status component).isSome = true := by
  induction deliveries generalizing m with
  | nil => exact h
  | cons d rest ih =>
    apply ih
    obtain ⟨hsame, -⟩ | ⟨name, health, -, hreport⟩ := m.absorb_cases d
    · rwa [hsame]
    · rw [hreport, status_report]
      split
      · rfl
      · exact h

end HealthMonitor

end PartitionLog
