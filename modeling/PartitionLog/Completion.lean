import PartitionLog.Error
import PartitionLog.Quoted

/-!
# Completions

The outcome of an operation that somebody waits for: pending until it is finished, and then what it
was finished with first.
-/

namespace PartitionLog

structure Completion (α : Type) where
  outcome : Option (Except LogError α) := none

namespace Completion

variable {α : Type}

def pending : Completion α := {}

def finished (outcome : Except LogError α) : Completion α := ⟨some outcome⟩

def isDone (c : Completion α) : Bool := c.outcome.isSome

def isFailed (c : Completion α) : Bool :=
  match c.outcome with
  | some (.error _) => true
  | _ => false

/-- The first outcome stays; the answer is whether this one was the first. -/
def finish (c : Completion α) (outcome : Except LogError α) : Bool × Completion α :=
  match c.outcome with
  | none => (true, finished outcome)
  | some _ => (false, c)

def stateName (c : Completion α) : String :=
  match c.outcome with
  | none => "pending"
  | some (.ok _) => "completed"
  | some (.error _) => "failed"

/-- The completion in a line. -/
def description (c : Completion α) : String :=
  String.join ["ActorFuture \x7b state: ", Quoted.text c.stateName, " \x7d"]

end Completion

end PartitionLog
