import Mathlib

/-!
# Running `StateM` computations

The core simp set runs a `StateT σ m` computation on a state (`StateT.run_bind`, `StateT.run_get`
and the rest) down to a computation of the underlying monad; for `StateM σ = StateT σ Id` that is
a computation of `Id`, whose `bind` and `pure` the core set leaves alone. The three equations
below reduce them, so that a run of a `do` block on a known state evaluates by `simp` to the pair
of its result and final state. `run_bind_of` chains runs whose results are already known.
-/

namespace Id

variable {α β : Type}

@[simp] theorem bind_eq_apply (x : Id α) (f : α → Id β) : (x >>= f) = f x := rfl

@[simp] theorem pure_eq_self (a : α) : (pure a : Id α) = a := rfl

@[simp] theorem map_eq_apply (f : α → β) (x : Id α) : (f <$> x) = f x := rfl

end Id

namespace StateM

variable {σ α β : Type}

/-- A run whose first computation is known continues from where it stopped. -/
theorem run_bind_of {x : StateM σ α} {f : α → StateM σ β} {s s' : σ} {a : α}
    (h : x.run s = (a, s')) : (x >>= f).run s = (f a).run s' := by
  rw [StateT.run_bind, h]
  rfl

end StateM
