import FractalFormula.Toml.Moment
import FractalFormula.Toml.Node
import FractalFormula.Toml.Quoted

/-!
# Reading TOML documents

A document is a sequence of lines: a key with a value, the header of a table, the header of
another table in an array, or nothing; a comment may end each. The whole document is read
before anything in it is looked at.

Arrays and inline tables may be nested at most `maxNesting` deep, and a key has at most
`maxKeyParts` parts; both are the arguments that the recursions descend on. Inside brackets
and braces lines may break wherever a blank may stand, except within a key, and a comma may
follow the last element. Elsewhere a key, its equals sign and the start of its value share
a line.
-/

namespace FractalFormula.Toml

/-- A procedure that reads something from the start of a text. -/
abbrev Reader (β : Type) := List Char → Option (β × List Char)

/-- How deep arrays and inline tables may be nested. -/
def maxNesting : Nat := 80

/-- How many parts a key may have. -/
def maxKeyParts : Nat := 80

/-! ### Between values -/

/-- The text behind a comment, if one starts here. It ends before the line break. -/
def dropComment? : List Char → Option (List Char)
  | '#' :: rest =>
    let after := rest.dropWhile isPlain
    if after.isEmpty || (afterNewline? after).isSome then some after else none
  | text => some text

/-- The text behind blanks, line breaks and comments. Every turn reads a line break. -/
def dropGap? : Nat → List Char → Option (List Char)
  | 0, text => some text
  | turns + 1, text => do
    let after ← dropComment? (dropSpace text)
    match afterNewline? after with
    | some rest => dropGap? turns rest
    | none => some after

/-- The text behind blanks, line breaks and comments. -/
def afterGap? (text : List Char) : Option (List Char) := dropGap? text.length text

/-! ### Keys -/

/-- Whether `c` may stand in a key without quotes. -/
def inBareKey (c : Char) : Bool := c.isAlphanum || c = '-' || c = '_'

/-- One part of a key. -/
def simpleKey? : Reader String := fun text =>
  match text with
  | c :: _ =>
    if c = '"' ∨ c = '\'' then (shortString? text).map fun (s, rest) => (String.ofList s, rest)
    else
      let key := text.takeWhile inBareKey
      if key.isEmpty then none else some (String.ofList key, text.dropWhile inBareKey)
  | [] => none

/-- A key of at most the given number of parts: its parts but the last, and the last. -/
def dottedKey? : Nat → Reader (List String × String)
  | 0 => fun _ => none
  | parts + 1 => fun text => do
    let (first, rest) ← simpleKey? text
    match dropSpace rest with
    | '.' :: rest =>
      let ((path, last), rest) ← dottedKey? parts (dropSpace rest)
      return ((first :: path, last), rest)
    | _ => return (([], first), rest)

/-- A key. -/
def key? : Reader (List String × String) := dottedKey? maxKeyParts

/-! ### Values -/

/-- Whether `c` may stand in a value without quotes. -/
def inScalar (c : Char) : Bool :=
  !(isSpace c || c = '\n' || c = '\r' || c = ',' || c = '[' || c = ']' || c = '\x7b' ||
    c = '\x7d' || c = '#' || c = '=' || c = '"' || c = '\'')

/-- A value without quotes. A date and a time may have a space between them. -/
def bareScalar? : Reader Value := fun text =>
  let run := text.takeWhile inScalar
  let after := text.dropWhile inScalar
  let single := (scalar? run).map fun v => (v, after)
  if isDate run then
    match after with
    | ' ' :: rest =>
      let long := run ++ ' ' :: rest.takeWhile inScalar
      match rest with
      | c :: _ =>
        if c.isDigit then (scalar? long).map fun v => (v, rest.dropWhile inScalar) else single
      | [] => single
    | _ => single
  else single

section

variable (value : Reader Value)

/-- A key with its value, added to the entries of an inline table. -/
def keyValue? (es : Entries) : Reader Entries := fun text => do
  let ((path, key), rest) ← key? text
  let rest ← expect? '=' (← afterGap? rest)
  let (v, rest) ← value (← afterGap? rest)
  let es ← es.insertDotted key v path
  return (es, rest)

/-- The elements of an array up to its closing bracket. Every turn reads an element. -/
def elements? : Nat → Reader (List Value)
  | 0 => fun _ => none
  | turns + 1 => fun text => do
    let text ← afterGap? text
    match text with
    | ']' :: rest => return ([], rest)
    | text =>
      let (v, rest) ← value text
      let rest ← afterGap? rest
      match rest with
      | ',' :: rest =>
        let (vs, rest) ← elements? turns rest
        return (v :: vs, rest)
      | ']' :: rest => return ([v], rest)
      | _ => none

/-- The entries of an inline table up to its closing brace. Every turn reads an entry. -/
def inlineEntries? : Nat → Entries → Reader Entries
  | 0, _ => fun _ => none
  | turns + 1, es => fun text => do
    let text ← afterGap? text
    match text with
    | '\x7d' :: rest => return (es, rest)
    | text =>
      let (es, rest) ← keyValue? value es text
      let rest ← afterGap? rest
      match rest with
      | ',' :: rest => inlineEntries? turns es rest
      | '\x7d' :: rest => return (es, rest)
      | _ => none

end

/-- A value without brackets and braces: a string in quotes, or a value without quotes. -/
def atom? : Reader Value := fun text =>
  if text.head? = some '"' ∨ text.head? = some '\'' then
    (string? text).map fun (s, rest) => (.string (String.ofList s), rest)
  else bareScalar? text

/-- A value, inside which at most the given number of brackets and braces may be open. -/
def value? : Nat → Reader Value
  | 0 => atom?
  | nesting + 1 => fun text =>
    match text with
    | '[' :: rest =>
      (elements? (value? nesting) text.length rest).map fun (vs, rest) => (.array vs, rest)
    | '\x7b' :: rest =>
      (inlineEntries? (value? nesting) text.length [] rest).map fun (es, rest) =>
        (.table (toTable es), rest)
    | text => atom? text

/-! ### Lines -/

/-- A document as far as it is read: all entries, and the path of the table that is open. -/
structure Partial where
  entries : Entries
  current : List String

/-- A header, read behind its first bracket. -/
def header? (p : Partial) : Reader Partial := fun text =>
  match text with
  | '[' :: text => do
    let ((path, key), rest) ← key? (dropSpace text)
    let rest ← expect? ']' (dropSpace rest)
    let rest ← expect? ']' rest
    let es ← p.entries.editTable (Entries.append key) path
    return (⟨es, path ++ [key]⟩, rest)
  | text => do
    let ((path, key), rest) ← key? (dropSpace text)
    let rest ← expect? ']' (dropSpace rest)
    let es ← p.entries.editTable (Entries.define key) path
    return (⟨es, path ++ [key]⟩, rest)

/-- A key with its value, added to the table that is open. -/
def entry? (p : Partial) : Reader Partial := fun text => do
  let ((path, key), rest) ← key? text
  let rest ← expect? '=' (dropSpace rest)
  let (v, rest) ← value? maxNesting (dropSpace rest)
  let es ← p.entries.editTable (Entries.insertDotted key v path) p.current
  return (⟨es, p.current⟩, rest)

/-- The lines of a document. Every turn but the last reads a line break. -/
def lines? : Nat → Partial → List Char → Option Partial
  | 0, _, _ => none
  | turns + 1, p, text => do
    let text := dropSpace text
    let (p, rest) ←
      match text with
      | '[' :: text => header? p text
      | [] => some (p, [])
      | c :: _ =>
        if c = '#' ∨ (afterNewline? text).isSome then some (p, text) else entry? p text
    let rest ← dropComment? (dropSpace rest)
    match rest with
    | [] => some p
    | rest =>
      let rest ← afterNewline? rest
      lines? turns p rest

/-- The table of a document, with its moments found; nothing when it is not valid. A byte order
mark at its start is passed over. -/
def parse? (document : String) : Option Table :=
  let text := document.toList
  let text := if text.head? = some (Char.ofNat 0xfeff) then text.tail else text
  (lines? (text.length + 1) ⟨[], []⟩ text).bind fun p => entriesWithMoments? (toTable p.entries)

end FractalFormula.Toml
