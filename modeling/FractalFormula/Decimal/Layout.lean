import FractalFormula.Decimal.Shortest

/-!
# Decimal text of a binary64 number

The shortest digits of a number, set in one of two styles. The plain style is positional
throughout and writes whole numbers without a point; it is used for formulas, whose
grammar reads it back. The literal style always shows a point or an exponent, as shader
source requires.
-/

namespace FractalFormula.Decimal

/-- How a finite number is set. -/
structure Style where
  /-- Whether a number whose first digit has this exponent is written positionally. -/
  positional : Int → Bool
  /-- What follows a whole number that is written positionally. -/
  wholeEnd : List Char

/-- Positional at any size; whole numbers have no point. -/
def Style.plain : Style := ⟨fun _ => true, []⟩

/-- Positional from `0.0001` up to, but not including, `10 ^ 16`; whole numbers end in `.0`. -/
def Style.literal : Style := ⟨fun order => decide (-4 ≤ order) && decide (order < 16), ['.', '0']⟩

/-- The digits `ds` with `places` of them after the point. -/
def withPoint (ds : List Char) (places : Nat) : List Char :=
  if places < ds.length then
    ds.take (ds.length - places) ++ '.' :: ds.drop (ds.length - places)
  else '0' :: '.' :: (List.replicate (places - ds.length) '0' ++ ds)

/-- `d` without an exponent. -/
def setPositional (wholeEnd : List Char) (d : Decimal) : List Char :=
  let ds := digits d.coefficient
  if 0 ≤ d.exponent then ds ++ List.replicate d.exponent.toNat '0' ++ wholeEnd
  else withPoint ds (-d.exponent).toNat

/-- A whole number with its sign. -/
def setInt (e : Int) : List Char :=
  if e < 0 then '-' :: digits (-e).toNat else digits e.toNat

/-- The digits `ds` with a point after the first and the exponent `order`. -/
def setScientific (ds : List Char) (order : Int) : List Char :=
  let fraction := ds.drop 1
  ds.take 1 ++ (if fraction.isEmpty then [] else '.' :: fraction) ++ 'e' :: setInt order

/-- A positive number in style `s`. -/
def Style.set (s : Style) (d : Decimal) : List Char :=
  if s.positional d.order then setPositional s.wholeEnd d
  else setScientific (digits d.coefficient) d.order

/-- `text` behind a minus sign if `negative`. -/
def signed (negative : Bool) (text : List Char) : List Char :=
  if negative then '-' :: text else text

/-- The text of `x` in style `s`. A zero keeps its sign, a NaN has none. -/
def Style.write (s : Style) (x : Float) : List Char :=
  match Binary64.ofFloat x with
  | .nan => ['N', 'a', 'N']
  | .infinite negative => signed negative ['i', 'n', 'f']
  | .finite negative m k =>
    signed negative (if m = 0 then '0' :: s.wholeEnd else s.set (shortest m k))

/-- The plain text of `x`. -/
def plain (x : Float) : List Char := Style.plain.write x

/-- The literal text of `x`. -/
def literal (x : Float) : List Char := Style.literal.write x

end FractalFormula.Decimal
