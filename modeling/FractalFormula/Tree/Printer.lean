import FractalFormula.Decimal.Layout
import FractalFormula.Tree.Basic

/-!
# Printing trees

The text of a tree has all its brackets, so that the parser reads it back into the same
tree: `(l op r)`, `(-x)`, `f(x)`, `2`, `0.5i`.
-/

namespace FractalFormula.Tree

variable {α : Type _} [Numeral α]

/-- The text of a number. A negative number stands in brackets with its minus sign, a number
with both parts as their sum or difference. -/
def writeNumber (x : α) : List Char :=
  let (re, im) := Numeral.parts x
  match re == 0.0, im == 0.0 with
  | true, true => ['0']
  | _, true =>
    if re < 0.0 then '(' :: '-' :: (Decimal.plain (-re) ++ [')']) else Decimal.plain re
  | true, false =>
    if im < 0.0 then '(' :: '-' :: (Decimal.plain (-im) ++ ['i', ')'])
    else Decimal.plain im ++ ['i']
  | false, false =>
    '(' :: (Decimal.plain re ++
      (if im < 0.0 then '-' else '+') :: (Decimal.plain im.abs ++ ['i', ')']))

/-- Texts with a comma between them. -/
def joinComma : List (List Char) → List Char
  | [] => []
  | [s] => s
  | s :: ss => s ++ ',' :: ' ' :: joinComma ss

/-- The text of a node whose children have the given texts. An operator shows one or two
operands and stands alone over any other number. -/
def writeNode : Label α → List (List Char) → List Char
  | .num x, _ => writeNumber x
  | .var name, _ => name.toList
  | .func f, texts => f.token.toList ++ '(' :: (joinComma texts ++ [')'])
  | .operator _, [operand] => '(' :: '-' :: (operand ++ [')'])
  | .operator o, [left, right] => '(' :: (left ++ o.token.toList ++ right ++ [')'])
  | .operator o, _ => o.token.toList

mutual

/-- The text of a tree, as characters. -/
def write : Tree α → List Char
  | .node l cs => writeNode l (writeAll cs)

/-- The texts of a list of trees. -/
def writeAll : List (Tree α) → List (List Char)
  | [] => []
  | t :: ts => write t :: writeAll ts

end

/-- The text of a tree. -/
def text (t : Tree α) : String := String.ofList t.write

end FractalFormula.Tree
