import PartitionLog.Attempt
import Mathlib.Order.Defs.Unbundled

/-!
# Attempts along a relation

An attempt leads along a relation of states if every run of it does, however it ends. Along a preorder,
what is put together from attempts that lead along it does so too.
-/

namespace PartitionLog.Attempt

variable {σ α β : Type} {R : σ → σ → Prop} {x : Attempt σ α}

def Leads (R : σ → σ → Prop) (x : Attempt σ α) : Prop := ∀ s, R s (x.run s).2

namespace Leads

theorem pure [Std.Refl R] (a : α) : Leads R (Pure.pure a) := refl_of R

theorem fail [Std.Refl R] (e : LogError) : Leads R (.fail e : Attempt σ α) := refl_of R

theorem get [Std.Refl R] : Leads R .get := refl_of R

theorem modify {f : σ → σ} (h : ∀ s, R s (f s)) : Leads R (.modify f) := h

theorem ofExcept [Std.Refl R] (r : Except LogError α) : Leads R (.ofExcept r) := by
  cases r with
  | ok a => exact pure a
  | error e => exact fail e

theorem bind [IsTrans σ R] {f : α → Attempt σ β} (hx : x.Leads R) (hf : ∀ a, (f a).Leads R) :
    (x >>= f).Leads R := by
  intro s
  have h := hx s
  rw [run_bind]
  split
  · next a t ht =>
    rw [ht] at h
    exact trans_of R h (hf a t)
  · next e t ht =>
    rwa [ht] at h

theorem outcome (hx : x.Leads R) : x.outcome.Leads R := hx

theorem mapError (hx : x.Leads R) (f : LogError → LogError) : (x.mapError f).Leads R := by
  intro s
  have h := hx s
  unfold run Attempt.mapError at *
  split
  · next heq => rwa [heq] at h
  · next heq => rwa [heq] at h

end Leads

end PartitionLog.Attempt
