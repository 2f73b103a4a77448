import FractalFormula.Toml.Scalar

/-!
# TOML strings

Strings in single or double quotes, on one line or on several. Double quotes allow
escapes. A string on several lines loses the line break behind its opening quotes and keeps
those inside it as they are written. A carriage return is part of a line break or not
allowed.
-/

namespace FractalFormula.Toml

/-- Whether `c` may stand in a document as itself: control characters other than the tab may
not. -/
def isPlain (c : Char) : Bool := c = '\t' || (0x20 ≤ c.toNat && c.toNat ≠ 0x7f)

/-- The character with a code that is not a surrogate. -/
def charOfCode? (code : Nat) : Option Char :=
  if code < 0xd800 ∨ (0xdfff < code ∧ code < 0x110000) then some (Char.ofNat code) else none

/-- The character written by `n` digits of base sixteen. -/
def hexChar? (n : Nat) (text : List Char) : Option (Char × List Char) :=
  let ds := text.take n
  if ds.length = n ∧ ds.all isHexDigit then
    (charOfCode? (ofBase 16 ds)).map fun c => (c, text.drop n)
  else none

/-- The character of an escape, read behind the backslash. -/
def escape? : List Char → Option (Char × List Char)
  | 'b' :: rest => some ('\x08', rest)
  | 't' :: rest => some ('\t', rest)
  | 'n' :: rest => some ('\n', rest)
  | 'f' :: rest => some ('\x0c', rest)
  | 'r' :: rest => some ('\r', rest)
  | 'e' :: rest => some ('\x1b', rest)
  | '"' :: rest => some ('"', rest)
  | '\\' :: rest => some ('\\', rest)
  | 'x' :: rest => hexChar? 2 rest
  | 'u' :: rest => hexChar? 4 rest
  | 'U' :: rest => hexChar? 8 rest
  | _ => none

/-- A string in double quotes, read behind the opening quote. Every turn reads a character, so
their number bounds the turns. -/
def basicString? : Nat → List Char → Option (List Char × List Char)
  | 0, _ => none
  | turns + 1, text =>
    match text with
    | '"' :: rest => some ([], rest)
    | '\\' :: rest => do
      let (c, rest) ← escape? rest
      let (s, rest) ← basicString? turns rest
      return (c :: s, rest)
    | c :: rest =>
      if isPlain c then do
        let (s, rest) ← basicString? turns rest
        return (c :: s, rest)
      else none
    | [] => none

/-- A string in single quotes, read behind the opening quote. -/
def literalString? : List Char → Option (List Char × List Char)
  | '\'' :: rest => some ([], rest)
  | c :: rest =>
    if isPlain c then do
      let (s, rest) ← literalString? rest
      return (c :: s, rest)
    else none
  | [] => none

/-- What follows a line break. -/
def afterNewline? : List Char → Option (List Char)
  | '\n' :: rest => some rest
  | '\r' :: '\n' :: rest => some rest
  | _ => none

/-- The text without a line break at its start. -/
def dropNewline (text : List Char) : List Char := (afterNewline? text).getD text

/-- Whether `c` is a blank inside a line. -/
def isSpace (c : Char) : Bool := c = ' ' || c = '\t'

/-- The text without blanks at its start. -/
def dropSpace (text : List Char) : List Char := text.dropWhile isSpace

/-- The text without blanks and line breaks at its start. -/
def dropWhitespace : List Char → List Char
  | '\n' :: rest => dropWhitespace rest
  | '\r' :: '\n' :: rest => dropWhitespace rest
  | c :: rest => if isSpace c then dropWhitespace rest else c :: rest
  | [] => []

/-- What follows a backslash at the end of a line: the rest of the text from the next character
that is neither a blank nor part of a line break. -/
def afterContinuation? (text : List Char) : Option (List Char) :=
  (afterNewline? (dropSpace text)).map dropWhitespace

/-- A string in three quotes `q`, read behind the opening quotes. Up to two quotes may stand
before the closing ones; escapes count if `escapes` holds. -/
def multilineString? (q : Char) (escapes : Bool) : Nat → List Char → Option (List Char × List Char)
  | 0, _ => none
  | turns + 1, text =>
    let quotes := (text.takeWhile (· = q)).length
    if 3 ≤ quotes then
      let inner := min (quotes - 3) 2
      some (List.replicate inner q, text.drop (inner + 3))
    else
      match text with
      | [] => none
      | c :: rest =>
        if c = '\\' ∧ escapes = true then
          match afterContinuation? rest with
          | some rest => multilineString? q escapes turns rest
          | none => do
            let (c, rest) ← escape? rest
            let (s, rest) ← multilineString? q escapes turns rest
            return (c :: s, rest)
        else if isPlain c || (afterNewline? text).isSome then do
          let (s, rest) ← multilineString? q escapes turns rest
          return (c :: s, rest)
        else none

/-- A string on one line. -/
def shortString? (text : List Char) : Option (List Char × List Char) :=
  match text with
  | '"' :: rest => basicString? text.length rest
  | '\'' :: rest => literalString? rest
  | _ => none

/-- A string of any kind. -/
def string? (text : List Char) : Option (List Char × List Char) :=
  match text with
  | '"' :: '"' :: '"' :: rest => multilineString? '"' true text.length (dropNewline rest)
  | '\'' :: '\'' :: '\'' :: rest => multilineString? '\'' false text.length (dropNewline rest)
  | text => shortString? text

end FractalFormula.Toml
