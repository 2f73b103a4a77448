import FractalFormula.Search
import FractalFormula.Text.Order

/-!
# Operators

The five binary operators of formulas. A symbol outside the table stands for `unknown`,
so looking one up never fails; whoever applies an unknown operator reports it.
-/

namespace FractalFormula

/-- An arithmetic operator. -/
inductive Operator where
  | add
  | sub
  | mul
  | div
  | pow
  | unknown
deriving DecidableEq, Repr

namespace Operator

/-- All operators, the unknown one last. -/
def all : List Operator := [.add, .sub, .mul, .div, .pow, .unknown]

/-- How the operator is written in formulas. -/
def token : Operator → String
  | add => "+"
  | sub => "-"
  | mul => "*"
  | div => "/"
  | pow => "^"
  | unknown => "ERROR"

/-- The operator in words. -/
def name : Operator → String
  | add => "Add"
  | sub => "Sub"
  | mul => "Mul"
  | div => "Div"
  | pow => "Pow"
  | unknown => "ERROR"

/-- The shader function that computes the operator on complex numbers. -/
def intrinsic : Operator → String
  | add => "cadd"
  | sub => "csub"
  | mul => "cmul"
  | div => "cdiv"
  | pow => "cpow"
  | unknown => "ERROR"

/-- The symbols, in ascending order. -/
def table : Array (String × Operator) :=
  #[("*", .mul), ("+", .add), ("-", .sub), ("/", .div), ("^", .pow)]

/-- The operator with the given symbol. -/
def ofSymbol (symbol : String) : Operator :=
  ((search (fun entry => Text.order entry.1.toList symbol.toList) table).map (·.2)).getD .unknown

/-- The operator with the given symbol of one character. -/
def ofChar (c : Char) : Operator := ofSymbol (String.singleton c)

end Operator

end FractalFormula
