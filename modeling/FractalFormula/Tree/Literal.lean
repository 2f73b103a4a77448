import FractalFormula.Decimal.Reading

/-!
# Number literals

A literal is a run of digits with at most one point and at least one digit, and an
exponent if digits follow its letter and sign. The longest such text is taken, so `2e` is
the literal `2` before a letter.
-/

namespace FractalFormula.Literal

/-- Digits, a point, digits: the text and what follows it. Either run may be empty, and so may
all of it. -/
def splitMantissa (s : List Char) : List Char × List Char :=
  let whole := s.takeWhile Char.isDigit
  match s.dropWhile Char.isDigit with
  | '.' :: after =>
    (whole ++ '.' :: after.takeWhile Char.isDigit, after.dropWhile Char.isDigit)
  | after => (whole, after)

/-- A sign and what follows it. -/
def splitSign : List Char → List Char × List Char
  | '+' :: s => (['+'], s)
  | '-' :: s => (['-'], s)
  | s => ([], s)

/-- An exponent and what follows it. Without digits there is no exponent, and its letter is
left where it is. -/
def splitExponent : List Char → List Char × List Char
  | [] => ([], [])
  | c :: s =>
    if c = 'e' ∨ c = 'E' then
      let (sign, after) := splitSign s
      let ds := after.takeWhile Char.isDigit
      if ds.isEmpty then ([], c :: s) else (c :: (sign ++ ds), after.dropWhile Char.isDigit)
    else ([], c :: s)

/-- The literal at the start of `s` and what follows it; nothing when there is no digit. -/
def split? (s : List Char) : Option (List Char × List Char) :=
  let (mantissa, afterMantissa) := splitMantissa s
  if mantissa.any Char.isDigit then
    let (exponent, after) := splitExponent afterMantissa
    some (mantissa ++ exponent, after)
  else none

/-- The value of a literal, if binary64 has a finite one. -/
def value? (literal : List Char) : Option Float :=
  (Decimal.read? literal).bind fun d =>
    if d.toBits < Binary64.infinityBits then some d.toFloat else none

end FractalFormula.Literal
