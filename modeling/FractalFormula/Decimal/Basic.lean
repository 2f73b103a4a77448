/-!
# Decimal numbers

A decimal number is a whole coefficient times a power of ten. This module holds the
type, rounding of a quotient to the nearest whole number, and the digits of a whole
number. Everything is exact: no floating-point operation is used.
-/

namespace FractalFormula

/-- The decimal number `coefficient · 10 ^ exponent`. -/
structure Decimal where
  coefficient : Nat
  exponent : Int
deriving DecidableEq, Repr, Inhabited

namespace Decimal

/-- The whole number nearest to `num / den`; a half goes to the even neighbour. -/
def roundDiv (num den : Nat) : Nat :=
  let quotient := num / den
  let rest := num % den
  if 2 * rest < den then quotient
  else if den < 2 * rest then quotient + 1
  else quotient + quotient % 2

/-- The digits of a whole number, most significant first; zero has the digit `0`. -/
def digits (n : Nat) : List Char := Nat.toDigits 10 n

/-- The numerator of `10 ^ e` as a fraction of whole numbers. -/
def tenUp (e : Int) : Nat := Nat.pow 10 e.toNat

/-- The denominator of `10 ^ e` as a fraction of whole numbers. -/
def tenDown (e : Int) : Nat := Nat.pow 10 (-e).toNat

/-- At most `n` zeros taken off the end of the coefficient. -/
def trimWithin : Nat → Decimal → Decimal
  | 0, d => d
  | n + 1, d =>
    if d.coefficient % 10 = 0 then trimWithin n ⟨d.coefficient / 10, d.exponent + 1⟩ else d

/-- The same number with no zero at the end of its coefficient. -/
def trim (d : Decimal) : Decimal :=
  if d.coefficient = 0 then ⟨0, 0⟩ else trimWithin d.coefficient d

/-- The exponent of the first digit: `d` lies between `10 ^ d.order` and ten times that. -/
def order (d : Decimal) : Int := (digits d.coefficient).length - 1 + d.exponent

end Decimal

end FractalFormula
