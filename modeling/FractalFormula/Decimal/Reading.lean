import FractalFormula.Decimal.Basic
import FractalFormula.Decimal.Binary64

/-!
# Reading decimal text

Decimal text is read as the binary64 number nearest to it, a half going to the even
significand. The value in units of `2 ^ -1074` is a fraction of whole numbers, and its
whole part alone fixes the scale of the result, so one division rounds it.
-/

namespace FractalFormula.Decimal

/-- The magnitude bits of the binary64 number nearest to `num / den` units. Rounding up to
the next power of two carries into the scale, and past the last finite number into
infinity. -/
def nearestBits (num den : Nat) : Nat :=
  let scale := (num / den).log2 - 52
  min (scale * Nat.pow 2 52 + roundDiv num (den * Nat.pow 2 scale)) Binary64.infinityBits

/-- The magnitude bits of the binary64 number nearest to `d`. Exponents far beyond the range
are settled without building a power of ten: from `10 ^ 400` on every number is infinite,
and below `10 ^ -400` every number is zero. -/
def toBits (d : Decimal) : Nat :=
  if d.coefficient = 0 then 0
  else if 400 < d.exponent then Binary64.infinityBits
  else if d.exponent + d.coefficient.log2 < -400 then 0
  else nearestBits (d.coefficient * Binary64.unit * tenUp d.exponent) (tenDown d.exponent)

/-- The binary64 number nearest to `d`. -/
def toFloat (d : Decimal) : Float := Binary64.toFloat false d.toBits

/-- The value of a run of digits read after the number `start`. -/
def ofDigits (start : Nat) (ds : List Char) : Nat :=
  ds.foldl (fun n c => 10 * n + (c.toNat - 48)) start

/-- The exponent `[eE][+-]?digit+` that fills `text`; no text is the exponent zero. -/
def readExponent? : List Char → Option Int
  | [] => some 0
  | c :: text =>
    if c = 'e' ∨ c = 'E' then
      match text with
      | '-' :: ds =>
        if ds.isEmpty || !ds.all Char.isDigit then none else some (-(ofDigits 0 ds : Nat))
      | '+' :: ds => if ds.isEmpty || !ds.all Char.isDigit then none else some (ofDigits 0 ds : Nat)
      | ds => if ds.isEmpty || !ds.all Char.isDigit then none else some (ofDigits 0 ds : Nat)
    else none

/-- The number written `digit* [. digit*] exponent?`, with at least one digit before the
exponent. -/
def read? (text : List Char) : Option Decimal :=
  let whole := text.takeWhile Char.isDigit
  let (fraction, rest) :=
    match text.dropWhile Char.isDigit with
    | '.' :: after => (after.takeWhile Char.isDigit, after.dropWhile Char.isDigit)
    | after => ([], after)
  if whole.isEmpty && fraction.isEmpty then none
  else
    (readExponent? rest).map fun e =>
      ⟨ofDigits (ofDigits 0 whole) fraction, e - fraction.length⟩

/-- The binary64 number written in `text`: an optional sign, then a decimal number, `inf` or
`NaN`. -/
def readFloat? (text : List Char) : Option Float :=
  let magnitude (negative : Bool) (body : List Char) : Option Float :=
    if body = ['i', 'n', 'f'] then some (Binary64.toFloat negative Binary64.infinityBits)
    else (read? body).map fun d => Binary64.toFloat negative d.toBits
  match text with
  | '-' :: body => magnitude true body
  | '+' :: body => magnitude false body
  | body =>
    if body = ['N', 'a', 'N'] then some (Float.ofBits 0x7ff8000000000000) else magnitude false body

end FractalFormula.Decimal
