import Mathlib.Order.Filter.AtTopBot.Basic

set_option autoImplicit false

/-!
# Loops on fuel

A loop that may not end is run on fuel, and `none` is a loop that is not over yet.  It
settles on a result when it gives that result on every fuel from some amount on.

`step` is a loop that takes one more turn and `stop` one that is over, so a result is found by
going along the loop's own turns.
-/

namespace MatrixFaces.Foundation

variable {α : Type}

/-- The loop comes to its end with the result, whatever fuel it has beyond what it needs. -/
def Settles (run : Nat → Option α) (result : α) : Prop :=
  ∀ᶠ fuel in Filter.atTop, run fuel = some result

namespace Settles

variable {run next : Nat → Option α} {result : α}

theorem of_eq (h : ∀ fuel, run fuel = some result) : Settles run result := .of_forall h

/-- A pass of the loop takes one unit of fuel. -/
theorem step (h : ∀ fuel, run (fuel + 1) = next fuel) (hnext : Settles next result) :
    Settles run result := by
  obtain ⟨need, hneed⟩ := Filter.eventually_atTop.mp hnext
  refine Filter.eventually_atTop.mpr ⟨need + 1, fun fuel hfuel => ?_⟩
  obtain ⟨more, rfl⟩ := Nat.exists_eq_add_of_le hfuel
  rw [Nat.add_right_comm, h, hneed _ (Nat.le_add_right _ _)]

/-- The last pass. -/
theorem stop (h : ∀ fuel, run (fuel + 1) = some result) : Settles run result :=
  step h (of_eq fun _ => rfl)

end Settles

end MatrixFaces.Foundation
