import FractalFormula.Decimal.Layout

/-!
# Decimal text with a given number of digits

Texts whose length is asked for: a number of places after the point, or a number of
significant digits. Both round the exact binary value, a half to the even neighbour.
-/

namespace FractalFormula.Decimal

/-- `u` units rounded to `places` places after the point. -/
def setFixed (places u : Nat) : List Char :=
  withPoint (digits (roundDiv (u * Nat.pow 10 places) Binary64.unit)) places

/-- The text of `x` with `places` places after the point, where `places` is not zero. With
`plus`, a number without a minus sign starts with `+`. -/
def fixed (places : Nat) (plus : Bool) (x : Float) : List Char :=
  let withSign (negative : Bool) (text : List Char) : List Char :=
    if negative then '-' :: text else if plus then '+' :: text else text
  match Binary64.ofFloat x with
  | .nan => ['N', 'a', 'N']
  | .infinite negative => withSign negative ['i', 'n', 'f']
  | .finite negative m k => withSign negative (setFixed places (m * Nat.pow 2 k))

/-- `u` units, not zero, rounded to `count` significant digits: the digits as a number and
the exponent of the first. -/
def significant (count u : Nat) : Nat × Int :=
  let top := magnitudeOrder u
  let e := top - count
  let c := roundDiv (u * tenDown e) (Binary64.unit * tenUp e)
  if c = Nat.pow 10 count then (c / 10, top) else (c, top - 1)

/-- The text of `x` with `count` significant digits, one of them before the point, and an
exponent. -/
def scientific (count : Nat) (x : Float) : List Char :=
  match Binary64.ofFloat x with
  | .nan => ['N', 'a', 'N']
  | .infinite negative => signed negative ['i', 'n', 'f']
  | .finite negative m k =>
    signed negative <|
      if m = 0 then setScientific (List.replicate count '0') 0
      else
        let (c, order) := significant count (m * Nat.pow 2 k)
        setScientific (digits c) order

end FractalFormula.Decimal
