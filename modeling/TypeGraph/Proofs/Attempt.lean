import TypeGraph.Store
import Mathlib.Data.List.Basic

/-!
# Outcomes of attempts

Computations that may break a rule. One that does stops where it is: what it has done
to the state until then stays done. `outcome` is what comes of a computation together
with the state that it leaves.
-/

namespace TypeGraph

/-- A computation goes on from what its first step leaves. -/
theorem run_bind_eq {σ α β : Type} {x : StateM σ α} {f : α → StateM σ β} {p q : σ} {a : α}
    (h : x.run p = (a, q)) :
    (x >>= f).run p = (f a).run q := by
  rw [StateT.run_bind, h]
  rfl

/-- A computation on a state that may break a rule. -/
abbrev Attempt (σ : Type) := ExceptT Misuse (StateM σ)

/-- A computation on a store that may break a rule. -/
abbrev StoreM := Attempt Store

namespace Attempt

variable {σ α β : Type} {x : Attempt σ α} {f : α → Attempt σ β} {p q : σ}

/-- What comes of a computation, and the state that it leaves. -/
def outcome (x : Attempt σ α) (p : σ) : Except Misuse α × σ := x.run.run p

theorem outcome_get (p : σ) : (getThe σ : Attempt σ σ).outcome p = (.ok p, p) := rfl

theorem outcome_bind_ok {a : α} (h : x.outcome p = (.ok a, q)) :
    (x >>= f).outcome p = (f a).outcome q := by
  rw [outcome] at h
  rw [outcome, ExceptT.run_bind, StateT.run_bind, h]
  rfl

theorem outcome_bind_error {e : Misuse} (h : x.outcome p = (.error e, q)) :
    (x >>= f).outcome p = (.error e, q) := by
  rw [outcome] at h
  rw [outcome, ExceptT.run_bind, StateT.run_bind, h]
  rfl

end Attempt

end TypeGraph
