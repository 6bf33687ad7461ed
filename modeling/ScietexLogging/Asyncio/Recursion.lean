import Mathlib.Logic.Basic

/-!
# Asyncio — procedures that may not return

A recursive procedure without a termination argument is given by its *body*: a
functional that says what one activation does, in terms of the procedure the
nested calls invoke. `approx F n` is the procedure cut off at `n` nested
activations (`none`: not finished); the procedure returns on an input when some
cut-off does.

* `approx_induct` — what holds of the procedure that never returns, and is kept
  by the body, holds of every approximation;
* `not_terminates` — the divergence rule: inputs from which every activation
  makes a nested call from the same set never return.
-/

namespace Asyncio

variable {α β : Type*}

/-- The recursive procedure with body `F`, cut off at `n` nested activations. -/
def approx (F : (α → Option β) → α → Option β) : Nat → α → Option β
  | 0, _ => none
  | n + 1, x => F (approx F n) x

/-- The procedure with body `F` returns on `x`. -/
def Terminates (F : (α → Option β) → α → Option β) (x : α) : Prop :=
  ∃ n y, approx F n x = some y

theorem approx_induct {F : (α → Option β) → α → Option β} {P : (α → Option β) → Prop}
    (h₀ : P fun _ => none) (hs : ∀ f, P f → P (F f)) (n : Nat) : P (approx F n) := by
  induction n with
  | zero => exact h₀
  | succ n ih => exact hs _ ih

theorem not_terminates {F : (α → Option β) → α → Option β} {D : α → Prop}
    (hs : ∀ n x, (∀ z, D z → approx F n z = none) → D x → F (approx F n) x = none)
    {x : α} (hx : D x) : ¬ Terminates F x := by
  have hnone : ∀ n z, D z → approx F n z = none := by
    intro n
    induction n with
    | zero => exact fun _ _ => rfl
    | succ n ih => exact fun z hz => hs n z ih hz
  rintro ⟨n, y, hy⟩
  rw [hnone n x hx] at hy
  exact absurd hy (by simp)

end Asyncio
