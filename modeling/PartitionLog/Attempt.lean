import PartitionLog.Error

/-!
# Attempts

An `Attempt σ α` works on a state `σ` and either answers or fails; what it did to the state before
failing stays done. `Attempt.within` lets an attempt on a component run on the whole.
-/

namespace PartitionLog

def Attempt (σ α : Type) : Type := σ → Except LogError α × σ

namespace Attempt

variable {σ τ α β : Type}

def run (x : Attempt σ α) (s : σ) : Except LogError α × σ := x s

def pure (a : α) : Attempt σ α := fun s => (.ok a, s)

def bind (x : Attempt σ α) (f : α → Attempt σ β) : Attempt σ β := fun s =>
  match x s with
  | (.ok a, t) => f a t
  | (.error e, t) => (.error e, t)

instance : Monad (Attempt σ) where
  pure := pure
  bind := bind

def fail (e : LogError) : Attempt σ α := fun s => (.error e, s)

def get : Attempt σ σ := fun s => (.ok s, s)

def modify (f : σ → σ) : Attempt σ Unit := fun s => (.ok (), f s)

def ofExcept : Except LogError α → Attempt σ α
  | .ok a => pure a
  | .error e => fail e

/-- The outcome of `x` as a value: never fails. -/
def outcome (x : Attempt σ α) : Attempt σ (Except LogError α) := fun s =>
  match x s with
  | (r, t) => (.ok r, t)

def mapError (x : Attempt σ α) (f : LogError → LogError) : Attempt σ α := fun s =>
  match x s with
  | (.ok a, t) => (.ok a, t)
  | (.error e, t) => (.error (f e), t)

/-- Run on a component that `get` finds and `put` replaces. -/
def within (get : σ → τ) (put : τ → σ → σ) (x : Attempt τ α) : Attempt σ α := fun s =>
  match x (get s) with
  | (r, t) => (r, put t s)

@[simp] theorem run_pure (a : α) (s : σ) : run (Pure.pure a) s = (.ok a, s) := rfl

@[simp] theorem run_fail (e : LogError) (s : σ) :
    run (fail e : Attempt σ α) s = (.error e, s) := rfl

@[simp] theorem run_get (s : σ) : run get s = (.ok s, s) := rfl

@[simp] theorem run_modify (f : σ → σ) (s : σ) : run (modify f) s = (.ok (), f s) := rfl

theorem run_bind (x : Attempt σ α) (f : α → Attempt σ β) (s : σ) :
    run (x >>= f) s =
      match run x s with
      | (.ok a, t) => run (f a) t
      | (.error e, t) => (.error e, t) := rfl

theorem run_bind_ok {x : Attempt σ α} {f : α → Attempt σ β} {s t : σ} {a : α}
    (h : run x s = (.ok a, t)) : run (x >>= f) s = run (f a) t := by rw [run_bind, h]

theorem run_bind_error {x : Attempt σ α} {f : α → Attempt σ β} {s t : σ} {e : LogError}
    (h : run x s = (.error e, t)) : run (x >>= f) s = (.error e, t) := by rw [run_bind, h]

end Attempt

end PartitionLog
