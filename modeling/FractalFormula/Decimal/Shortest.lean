import FractalFormula.Decimal.Basic
import FractalFormula.Decimal.Binary64

/-!
# Shortest decimal of a binary64 number

Among the decimals that read back as a given positive number, the one with the fewest
digits, and among those the nearest. Reading rounds to the nearest number with a half
going to the even significand, so the decimals that read back as `m · 2 ^ k` units form
an interval around it, whose ends belong to it exactly when `m` is even. The interval is
kept in quarters of a unit, where its ends are whole numbers.
-/

namespace FractalFormula.Decimal

/-- Four times the distance from `m · 2 ^ k` down to the end of its interval. Below a power
of two the numbers are twice as dense. -/
def gapBelow (m k : Nat) : Nat :=
  if m = Nat.pow 2 52 ∧ k ≠ 0 then Nat.pow 2 k else 2 * Nat.pow 2 k

/-- Four times the distance from `m · 2 ^ k` up to the end of its interval. -/
def gapAbove (k : Nat) : Nat := 2 * Nat.pow 2 k

/-- Whether `d` lies in the interval of decimals that read back as `m · 2 ^ k` units. -/
def readsAs (m k : Nat) (d : Decimal) : Bool :=
  let point := 4 * (d.coefficient * tenUp d.exponent * Binary64.unit)
  let low := (4 * (m * Nat.pow 2 k) - gapBelow m k) * tenDown d.exponent
  let high := (4 * (m * Nat.pow 2 k) + gapAbove k) * tenDown d.exponent
  if m % 2 = 0 then decide (low ≤ point) && decide (point ≤ high)
  else decide (low < point) && decide (point < high)

/-- The multiple of `10 ^ e` nearest to `m · 2 ^ k` units, provided that it reads back;
of two at the same distance the larger. -/
def nearestOnGrid (m k : Nat) (e : Int) : Option Decimal :=
  let num := m * Nat.pow 2 k * tenDown e
  let den := Binary64.unit * tenUp e
  let below := num / den
  match readsAs m k ⟨below, e⟩, readsAs m k ⟨below + 1, e⟩ with
  | true, true => some (if 2 * (num % den) < den then ⟨below, e⟩ else ⟨below + 1, e⟩)
  | true, false => some ⟨below, e⟩
  | false, true => some ⟨below + 1, e⟩
  | false, false => none

/-- The exponent `e` with `10 ^ (e - 1) ≤ u < 10 ^ e`, for `u` units. The power of two below
`u` settles it up to one comparison. -/
def magnitudeOrder (u : Nat) : Int :=
  let guess : Int := ((u.log2 : Int) - 1074) * 30103 / 100000 + 1
  if Binary64.unit * tenUp guess ≤ u * tenDown guess then guess + 1 else guess

/-- All digits of `m · 2 ^ k` units. -/
def exact (m k : Nat) : Decimal := ⟨m * Nat.pow 2 k * Nat.pow 5 1074, -1074⟩

/-- The shortest decimal that reads back as `m · 2 ^ k` units, for `m` not zero. Grids with
one, two, … seventeen digits are tried; the exact decimal closes the search. -/
def shortest (m k : Nat) : Decimal :=
  let top := magnitudeOrder (m * Nat.pow 2 k)
  let found := (List.range 17).findSome? fun (i : Nat) => nearestOnGrid m k (top - 1 - i)
  (found.getD (exact m k)).trim

end FractalFormula.Decimal
