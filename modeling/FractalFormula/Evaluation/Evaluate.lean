import FractalFormula.Error
import FractalFormula.Evaluation.Bindings
import FractalFormula.Evaluation.State
import FractalFormula.Tree.Basic

/-!
# Evaluation

The value of a tree where the names have values. Names are looked up in the state of the
iteration first and in the bindings second; a name in neither is an error. Singular
arguments are none: infinite and undefined numbers go through, since divergence is what
escape-time images show.

Operands are evaluated from left to right, and the first error is the result. The children
of a number or a variable are not looked at.
-/

namespace FractalFormula

namespace Tree

variable {α : Type _} [Scalar α]

/-- The value of a tree whose names have the values `value?` gives them. -/
def evaluateWith (value? : String → Option α) : Tree α → Except Error α
  | .node (.num x) _ => .ok x
  | .node (.var name) _ =>
    match value? name with
    | some x => .ok x
    | none => .error (.unknownVariable name)
  | .node (.operator _) [operand] => do
    let x ← evaluateWith value? operand
    return Scalar.negated x
  | .node (.operator o) [left, right] => do
    let x ← evaluateWith value? left
    let y ← evaluateWith value? right
    match Scalar.operate? o x y with
    | some z => return z
    | none => .error (.malformedNode 2)
  | .node (.operator _) cs => .error (.malformedNode cs.length)
  | .node (.func .unknown) [_] => .error (.unknownFunction Func.unknown.token)
  | .node (.func f) [argument] => do
    let x ← evaluateWith value? argument
    return Scalar.apply f x
  | .node (.func _) cs => .error (.malformedNode cs.length)

/-- The value of a tree under bindings. -/
def evaluate (t : Tree α) (b : Bindings α) : Except Error α := t.evaluateWith b.get?

/-- The value of a tree under bindings and the state of an iteration, which goes first. -/
def evaluateIn (t : Tree α) (b : Bindings α) (s : State α) : Except Error α :=
  t.evaluateWith fun name => (s.get? name).or (b.get? name)

/-- The tree as a function of one variable. -/
def toFunction (t : Tree α) (name : String) (b : Bindings α) (x : α) : Except Error α :=
  t.evaluateIn b (State.empty.set name x)

end Tree

end FractalFormula
