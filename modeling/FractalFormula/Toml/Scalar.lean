import FractalFormula.Decimal.Reading
import FractalFormula.Toml.Value

/-!
# TOML scalars without quotes

Integers, floats, truth values, dates and times. Each is recognised on the whole run of
characters up to the next blank or punctuation, so a run that fits none is an error.
-/

namespace FractalFormula.Toml

/-! ### Integers -/

/-- The digits of a run in which single underscores may stand between digits. -/
def groupedDigits? (isDigit : Char → Bool) : List Char → Option (List Char)
  | [] => none
  | [c] => if isDigit c then some [c] else none
  | c :: '_' :: rest => if isDigit c then (groupedDigits? isDigit rest).map (c :: ·) else none
  | c :: rest => if isDigit c then (groupedDigits? isDigit rest).map (c :: ·) else none

/-- The value of a digit of base up to sixteen. -/
def digitValue (c : Char) : Nat :=
  if c.isDigit then c.toNat - 48
  else if 'a' ≤ c then c.toNat - 87
  else c.toNat - 55

/-- Whether `c` is a digit of base sixteen. -/
def isHexDigit (c : Char) : Bool :=
  c.isDigit || ('a' ≤ c && c ≤ 'f') || ('A' ≤ c && c ≤ 'F')

/-- Whether `c` is a digit of base eight. -/
def isOctalDigit (c : Char) : Bool := '0' ≤ c && c ≤ '7'

/-- Whether `c` is a digit of base two. -/
def isBinaryDigit (c : Char) : Bool := c = '0' || c = '1'

/-- The number written by digits in a base. -/
def ofBase (base : Nat) (ds : List Char) : Nat :=
  ds.foldl (fun n c => base * n + digitValue c) 0

/-- `n` if it fits into 64 bits with a sign. -/
def inRange? (n : Int) : Option Int :=
  if -0x8000000000000000 ≤ n ∧ n < 0x8000000000000000 then some n else none

/-- A sign and the rest; `true` stands for minus. -/
def splitSign : List Char → Option Bool × List Char
  | '-' :: rest => (some true, rest)
  | '+' :: rest => (some false, rest)
  | rest => (none, rest)

/-- The digits of a decimal whole number, which does not start with a superfluous zero. -/
def wholeDigits? (text : List Char) : Option (List Char) := do
  let ds ← groupedDigits? Char.isDigit text
  match ds with
  | '0' :: _ :: _ => none
  | ds => some ds

/-- An integer. -/
def integer? (text : List Char) : Option Int :=
  match text with
  | '0' :: 'x' :: ds => (groupedDigits? isHexDigit ds).bind fun ds => inRange? (ofBase 16 ds)
  | '0' :: 'o' :: ds => (groupedDigits? isOctalDigit ds).bind fun ds => inRange? (ofBase 8 ds)
  | '0' :: 'b' :: ds => (groupedDigits? isBinaryDigit ds).bind fun ds => inRange? (ofBase 2 ds)
  | text => do
    let (sign, body) := splitSign text
    let ds ← wholeDigits? body
    inRange? (if sign = some true then -(ofBase 10 ds : Nat) else (ofBase 10 ds : Nat))

/-! ### Floats -/

/-- The text of an exponent without underscores. -/
def exponentText? : List Char → Option (List Char)
  | c :: rest =>
    if c = 'e' ∨ c = 'E' then do
      let (sign, body) := splitSign rest
      let ds ← groupedDigits? Char.isDigit body
      return 'e' :: ((if sign = some true then ['-'] else []) ++ ds)
    else none
  | [] => none

/-- Whether `c` is a digit or the underscore between digits. -/
def inDigits (c : Char) : Bool := c.isDigit || c = '_'

/-- The text of a float without sign and underscores: a whole number with a fraction or an
exponent or both. -/
def floatText? (body : List Char) : Option (List Char) := do
  let whole ← wholeDigits? (body.takeWhile inDigits)
  match body.dropWhile inDigits with
  | '.' :: rest =>
    let fraction ← groupedDigits? Char.isDigit (rest.takeWhile inDigits)
    let exponent ←
      match rest.dropWhile inDigits with
      | [] => some []
      | rest => exponentText? rest
    return whole ++ '.' :: (fraction ++ exponent)
  | rest =>
    let exponent ← exponentText? rest
    return whole ++ exponent

/-- A float. One beyond the range of binary64 is refused, one too small is zero. -/
def float? (text : List Char) : Option Float := do
  let (sign, body) := splitSign text
  let negative := sign = some true
  if body = "inf".toList then return Binary64.toFloat negative Binary64.infinityBits
  else if body = "nan".toList then return Float.ofBits 0x7ff8000000000000
  else
    let d ← (floatText? body).bind Decimal.read?
    if d.toBits < Binary64.infinityBits then return Binary64.toFloat negative d.toBits
    else none

/-! ### Dates and times -/

/-- The number of exactly `n` digits and the rest. -/
def fixedDigits? (n : Nat) (text : List Char) : Option (Nat × List Char) :=
  let ds := text.take n
  if ds.length = n ∧ ds.all Char.isDigit then some (ofBase 10 ds, text.drop n) else none

/-- The rest behind the character `c`. -/
def expect? (c : Char) : List Char → Option (List Char)
  | d :: rest => if d = c then some rest else none
  | [] => none

/-- The number of days of a month. -/
def daysIn (year month : Nat) : Nat :=
  if month = 2 then
    if year % 4 = 0 ∧ (year % 100 ≠ 0 ∨ year % 400 = 0) then 29 else 28
  else if month = 4 ∨ month = 6 ∨ month = 9 ∨ month = 11 then 30
  else 31

/-- What follows a date. -/
def afterDate? (text : List Char) : Option (List Char) := do
  let (year, text) ← fixedDigits? 4 text
  let text ← expect? '-' text
  let (month, text) ← fixedDigits? 2 text
  let text ← expect? '-' text
  let (day, text) ← fixedDigits? 2 text
  if 1 ≤ month ∧ month ≤ 12 ∧ 1 ≤ day ∧ day ≤ daysIn year month then some text else none

/-- What follows the seconds of a time, which may have a fraction. -/
def afterSeconds? (text : List Char) : Option (List Char) := do
  let (second, text) ← fixedDigits? 2 text
  if second ≤ 60 then
    match text with
    | '.' :: rest =>
      if (rest.takeWhile Char.isDigit).isEmpty then none else some (rest.dropWhile Char.isDigit)
    | text => some text
  else none

/-- What follows a time. Seconds may be left out. -/
def afterTime? (text : List Char) : Option (List Char) := do
  let (hour, text) ← fixedDigits? 2 text
  let text ← expect? ':' text
  let (minute, text) ← fixedDigits? 2 text
  if hour ≤ 23 ∧ minute ≤ 59 then
    match text with
    | ':' :: rest => afterSeconds? rest
    | text => some text
  else none

/-- Whether `text` is an offset from universal time, or nothing. -/
def isOffset (text : List Char) : Bool :=
  match text with
  | [] => true
  | [c] => c = 'Z' || c = 'z'
  | c :: rest =>
    (c = '+' || c = '-') &&
      match (do
        let (hour, rest) ← fixedDigits? 2 rest
        let rest ← expect? ':' rest
        let (minute, rest) ← fixedDigits? 2 rest
        return (hour, minute, rest)) with
      | some (hour, minute, []) => hour ≤ 23 && minute ≤ 59
      | _ => false

/-- Whether `text` is a date alone. -/
def isDate (text : List Char) : Bool := afterDate? text = some []

/-- Whether `text` is a date, a time, or a date with a time behind `T` or a space. -/
def isMoment (text : List Char) : Bool :=
  match afterDate? text with
  | some [] => true
  | some (c :: rest) =>
    (c = 'T' || c = 't' || c = ' ') && ((afterTime? rest).map isOffset).getD false
  | none => afterTime? text = some []

/-! ### All of them -/

/-- The value of a run of characters without quotes. -/
def scalar? (text : List Char) : Option Value :=
  if text = "true".toList then some (.boolean true)
  else if text = "false".toList then some (.boolean false)
  else if isMoment text then some (.moment (String.ofList text))
  else
    match integer? text with
    | some n => some (.integer n)
    | none => (float? text).map .float

end FractalFormula.Toml
