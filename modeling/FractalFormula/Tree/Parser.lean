import FractalFormula.Error
import FractalFormula.Text.Blank
import FractalFormula.Text.Numeric
import FractalFormula.Tree.Basic
import FractalFormula.Tree.Literal

/-!
# Parsing formulas

Formulas are read by recursive descent, without backtracking:

    Expr  := '-'? Term (('+' | '-') Term)*
    Term  := Power (('*' | '/') Power)*
    Power := Atom ('^' Power)?
    Atom  := '(' Expr ')' | name '(' Expr ')' | number 'i'? | name

Sums and products associate to the left, powers to the right, and a leading minus negates
the whole first term.

Blanks are removed before anything else, so they may stand anywhere, even inside names and
numbers. The procedures work on the characters that remain and say where they fail by the
number of characters still unread; `Failure.locate` turns this into a position in the text.

Two limits keep trees and recursion small. A tree is at most `maxDepth` deep, and at most
`maxNesting` powers are open at any character, which suffices for the printed form of every
tree within the first limit. The number of powers that may still be opened is the argument
on which the recursion descends.
-/

namespace FractalFormula.Parser

/-- The depth of the deepest tree that is built. -/
def maxDepth : Nat := 256

/-- The greatest number of powers open at a character. -/
def maxNesting : Nat := 2 * maxDepth + 1

/-- Why reading failed, and how many characters were unread at the place it is about. -/
inductive Failure where
  /-- Nothing can be read here. -/
  | unreadable (unread : Nat)
  /-- The bracket here is not closed after what stands in it. -/
  | unclosed (unread : Nat)
  /-- No function has this name. -/
  | noFunction (name : List Char)
  /-- A complete formula ends before this symbol. -/
  | leftover (unread : Nat) (symbol : Char)
deriving DecidableEq, Repr

/-- A tree that was read, its depth, and the characters behind it. -/
structure Reading (α : Type _) where
  tree : Tree α
  depth : Nat
  rest : List Char

/-- A procedure that reads a tree from the start of a text. -/
abbrev Reader (α : Type _) := List Char → Except Failure (Reading α)

/-- The depth of a node over children of depth `below`, read as far as `rest`. -/
def deeper (below : Nat) (rest : List Char) : Except Failure Nat :=
  if maxDepth ≤ below then .error (.unreadable rest.length) else .ok (below + 1)

/-- Whether `c` may start a name. -/
def startsName (c : Char) : Bool := Text.isAlphabetic c || c = '_'

/-- Whether `c` may stand in a name. -/
def inName (c : Char) : Bool := Text.isAlphanumeric c || c = '_'

/-- Whether `c` may start a number. -/
def startsNumber (c : Char) : Bool := c.isDigit || c = '.'

/-- Whether `c` joins terms. -/
def joinsTerms (c : Char) : Bool := c = '+' || c = '-'

/-- Whether `c` joins powers. -/
def joinsPowers (c : Char) : Bool := c = '*' || c = '/'

section

variable {α : Type _}

/-- Operators for which `joins` holds, each with another operand, read behind `first` and
grouped to the left. A turn reads at least the operator, so the number of unread characters
bounds the number of turns. -/
def chain (operand : Reader α) (joins : Char → Bool) : Nat → Reading α → Except Failure (Reading α)
  | 0, first => .ok first
  | turns + 1, first =>
    match first.rest with
    | [] => .ok first
    | c :: rest =>
      if joins c then do
        let second ← operand rest
        let depth ← deeper (max first.depth second.depth) second.rest
        chain operand joins turns
          ⟨.binary (Operator.ofChar c) first.tree second.tree, depth, second.rest⟩
      else .ok first

/-- A term, made of what `power` reads. -/
def term (power : Reader α) : Reader α := fun s => do
  let first ← power s
  chain power joinsPowers first.rest.length first

/-- A first term with the minus sign before it. -/
def negatedTerm (power : Reader α) : Reader α := fun s => do
  let first ← term power s
  let depth ← deeper first.depth first.rest
  return ⟨.negation first.tree, depth, first.rest⟩

/-- An expression, made of terms of what `power` reads. -/
def expr (power : Reader α) : Reader α := fun s => do
  let first ←
    match s with
    | '-' :: s' => negatedTerm power s'
    | s => term power s
  chain (term power) joinsTerms first.rest.length first

/-- What stands in a bracket: an expression and the closing bracket. The bracket was opened at
the start of `opened`. -/
def bracketed (power : Reader α) (opened : List Char) : Reader α := fun s => do
  let inner ← expr power s
  match inner.rest with
  | ')' :: rest => .ok ⟨inner.tree, inner.depth, rest⟩
  | _ => .error (.unclosed opened.length)

/-- A name: a call if a bracket follows, and a variable if not. -/
def named (power : Reader α) : Reader α := fun s =>
  let name := s.takeWhile inName
  match s.dropWhile inName with
  | '(' :: s' =>
    match Func.ofSymbol (String.ofList name) with
    | .unknown => .error (.noFunction name)
    | f => do
      let argument ← bracketed power ('(' :: s') s'
      let depth ← deeper argument.depth argument.rest
      return ⟨.call f argument.tree, depth, argument.rest⟩
  | rest => .ok ⟨.var (String.ofList name), 1, rest⟩

/-- A number, imaginary if `i` follows it directly. Numbers beyond the range of binary64 and
imaginary numbers among real scalars are refused. -/
def number [Numeral α] : Reader α := fun s =>
  let failure : Except Failure (Reading α) := .error (.unreadable s.length)
  match Literal.split? s with
  | none => failure
  | some (literal, after) =>
    match Literal.value? literal with
    | none => failure
    | some value =>
      let (imaginary, rest) :=
        match after with
        | 'i' :: rest => (true, rest)
        | rest => (false, rest)
      match Numeral.ofLiteral? value imaginary with
      | none => failure
      | some x => .ok ⟨.num x, 1, rest⟩

/-- An atom, inside which `power` reads powers. -/
def atom [Numeral α] (power : Reader α) : Reader α := fun s =>
  match s with
  | [] => .error (.unreadable 0)
  | c :: s' =>
    if c = '(' then bracketed power s s'
    else if startsName c then named power s
    else if startsNumber c then number s
    else .error (.unreadable s.length)

/-- A power, while at most the given number of powers may be opened. -/
def power [Numeral α] : Nat → Reader α
  | 0 => fun s => .error (.unreadable s.length)
  | nesting + 1 => fun s => do
    let base ← atom (power nesting) s
    match base.rest with
    | '^' :: rest =>
      let exponent ← power nesting rest
      let depth ← deeper (max base.depth exponent.depth) exponent.rest
      return ⟨.pow base.tree exponent.tree, depth, exponent.rest⟩
    | _ => .ok base

/-- A formula that fills a text without blanks. -/
def formula [Numeral α] (s : List Char) : Except Failure (Tree α) := do
  let all ← expr (power maxNesting) s
  match all.rest with
  | [] => .ok all.tree
  | c :: _ => .error (.leftover all.rest.length c)

end

/-! ### Positions -/

/-- The characters of `text` that are not blanks. -/
def inked (text : List Char) : List Char := text.filter fun c => !Text.isBlank c

/-- The positions in `text` of its characters that are not blanks. -/
def inkedPositions (text : List Char) : List Nat :=
  (text.zipIdx.filter fun c => !Text.isBlank c.1).map (·.2)

/-- The position in `text` before which all but `unread` of the characters that are not blanks
stand; the end of the text if none is unread. -/
def positionOf (text : List Char) (unread : Nat) : Nat :=
  let positions := inkedPositions text
  positions.getD (positions.length - unread) text.length

/-- The failure as an error about `text`. -/
def Failure.locate (text : List Char) : Failure → Error
  | .unreadable unread => .syntaxError (positionOf text unread)
  | .unclosed unread => .unclosedBracket (positionOf text unread)
  | .noFunction name => .unknownFunction (String.ofList name)
  | .leftover unread symbol => .unexpectedSymbol (positionOf text unread) symbol

end FractalFormula.Parser

namespace FractalFormula

/-- The tree of a formula. -/
def Tree.parse {α : Type _} [Numeral α] (text : String) : Except Error (Tree α) :=
  (Parser.formula (Parser.inked text.toList)).mapError (Parser.Failure.locate text.toList)

end FractalFormula
