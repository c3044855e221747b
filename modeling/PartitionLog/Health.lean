import PartitionLog.Listeners

/-!
# Health of components

The monitor keeps the last status that was reported for each component, in the order of their
names. The whole is unhealthy as soon as one component is; the first of these tells the reason.
-/

namespace PartitionLog

inductive Health where
  | healthy
  | unhealthy (reason : String)
  deriving DecidableEq, Repr

structure HealthMonitor where
  /-- Components and their status, by name. -/
  components : List (String × Health) := []
  deriving DecidableEq, Repr

namespace HealthMonitor

def status (m : HealthMonitor) (component : String) : Option Health :=
  m.components.lookup component

/-- Put an item where its name belongs, over one with that name. -/
def place (component : String) (health : Health) : List (String × Health) → List (String × Health)
  | [] => [(component, health)]
  | (name, status) :: rest =>
    if component < name then (component, health) :: (name, status) :: rest
    else if component = name then (component, health) :: rest
    else (name, status) :: place component health rest

def report (m : HealthMonitor) (component : String) (health : Health) : HealthMonitor :=
  ⟨place component health m.components⟩

/-- Track a component, as healthy. -/
def register (m : HealthMonitor) (component : String) : HealthMonitor :=
  m.report component .healthy

def remove (m : HealthMonitor) (component : String) : HealthMonitor :=
  ⟨m.components.filter (·.1 != component)⟩

/-- Unhealthy if a component is. -/
def overall (m : HealthMonitor) : Health :=
  (m.components.findSome? fun
    | (_, .healthy) => none
    | (name, .unhealthy reason) => some (.unhealthy s!"{name}: {reason}")).getD .healthy

/-- Take over what a reporting listener was told. -/
def absorb (m : HealthMonitor) (d : Delivery) : HealthMonitor :=
  match d.listener.component, d.notice with
  | none, _ => m
  | some component, .failure e => m.report component (.unhealthy e.message)
  | some component, .recovered => m.report component .healthy

end HealthMonitor

end PartitionLog
