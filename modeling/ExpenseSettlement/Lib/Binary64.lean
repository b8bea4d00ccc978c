import Mathlib.Algebra.Order.Field.Rat

/-!
# Floats as numbers

What a binary64 float stands for as a rational, and the sum of a list with Neumaier's compensation.
-/

namespace Lib.Binary64

/-- The nearest float, or an infinity where none is near. -/
def ofInt (n : ℤ) : Float := .ofModel (.ofInt n)

/-- The number that a float stands for, unless it is an infinity or not a number. -/
def value? (x : Float) : Option ℚ :=
  match x.toModel.unpack with
  | .infinity _ | .notANumber => none
  | .zero _ => some 0
  | .finite sign mantissa exponent _ =>
      let magnitude := mkRat (mantissa * 2 ^ exponent.toNat) (2 ^ (-exponent).toNat)
      match sign with
      | .positive => some magnitude
      | .negative => some (-magnitude)

/-- The sum so far, and what its additions have lost. -/
def accumulate : List Float → Float → Float → Float × Float
  | [], total, lost => (total, lost)
  | x :: xs, total, lost =>
      let next := total + x
      let low := if x.abs ≤ total.abs then (total - next) + x else (x - next) + total
      accumulate xs next (lost + low)

/-- What is lost is added at the end, unless it is zero or has overflowed. -/
def sum : List Float → Float
  | [] => ofInt 0
  | x :: xs =>
      let (total, lost) := accumulate xs (ofInt 0 + x) (ofInt 0)
      if lost != ofInt 0 ∧ lost.isFinite then total + lost else total

end Lib.Binary64
