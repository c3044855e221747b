import PartitionLog.Error

/-!
# Failure listeners

Observers of an appender's halts and recoveries, told in the order in which they were registered.
`delivered` is the log of what each was told; a listener that reports to the health monitor names
the component it reports for.
-/

namespace PartitionLog

inductive Notice where
  | failure (error : LogError)
  | recovered
  deriving DecidableEq, Repr

/-- Who registered a listener: a client under a name, or a partition for one of its roles. -/
inductive ListenerKey where
  | observer (name : String)
  | partition (number : Nat)
  deriving DecidableEq, Repr

structure Listener where
  key : ListenerKey
  component : Option String := none
  deriving DecidableEq, Repr

structure Delivery where
  listener : Listener
  notice : Notice
  deriving DecidableEq, Repr

structure Listeners where
  registered : List Listener := []
  delivered : List Delivery := []
  deriving DecidableEq, Repr

namespace Listeners

def isRegistered (ls : Listeners) (key : ListenerKey) : Bool := ls.registered.any (·.key == key)

/-- Registering the same listener again changes nothing. -/
def register (ls : Listeners) (listener : Listener) : Listeners :=
  if ls.isRegistered listener.key then ls
  else { ls with registered := ls.registered ++ [listener] }

def remove (ls : Listeners) (key : ListenerKey) : Listeners :=
  { ls with registered := ls.registered.filter (·.key != key) }

def size (ls : Listeners) : Nat := ls.registered.length

def notify (ls : Listeners) (notice : Notice) : Listeners :=
  { ls with delivered := ls.delivered ++ ls.registered.map (⟨·, notice⟩) }

/-- Forget what was delivered, once it was looked at. -/
def collected (ls : Listeners) : Listeners := { ls with delivered := [] }

end Listeners

end PartitionLog
