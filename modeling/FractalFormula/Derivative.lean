import FractalFormula.Error
import FractalFormula.Evaluation.Evaluate
import FractalFormula.Simplify

/-!
# Derivatives

The derivative of a tree in one variable, built rule by rule and not simplified. It fails
only on nodes whose children do not fit them and on unknown operators and functions.

Beside it stand what is made of derivatives: those of higher order, the map of Newton's
method, and a check of a derivative against a difference quotient.
-/

namespace FractalFormula

variable {α : Type _} [Scalar α]

/-- The derivative of an operator from its operands and their derivatives. A power has a
shorter form when its exponent or its base does not mention the variable. -/
def Operator.derivative (name : String) (o : Operator) (l r dl dr : Tree α) :
    Except Error (Tree α) :=
  match o with
  | .add => .ok (dl + dr)
  | .sub => .ok (dl - dr)
  | .mul => .ok (dl * r + l * dr)
  | .div => .ok ((dl * r - l * dr) / r.pow .two)
  | .pow =>
    if !r.mentions name then .ok (r * l.pow (r - 1) * dl)
    else if !l.mentions name then .ok (l.pow r * .call .log l * dr)
    else .ok (l.pow r * (dr * .call .log l + r * dl / l))
  | .unknown => .error (.malformedNode 2)

/-- The derivative of a function from its argument and the argument's derivative. -/
def Func.derivative (f : Func) (u du : Tree α) : Except Error (Tree α) :=
  let square (t : Tree α) : Tree α := t.pow .two
  match f with
  | .sin => .ok (.call .cos u * du)
  | .cos => .ok (-.call .sin u * du)
  | .tan => .ok (du / square (.call .cos u))
  | .cot => .ok (-(du / square (.call .sin u)))
  | .asin => .ok (du / .call .sqrt (1 - square u))
  | .acos => .ok (-du / .call .sqrt (1 - square u))
  | .atan => .ok (du / (1 + square u))
  | .acot => .ok (-du / (1 + square u))
  | .sinh => .ok (.call .cosh u * du)
  | .cosh => .ok (.call .sinh u * du)
  | .tanh => .ok (du / square (.call .cosh u))
  | .coth => .ok (-(du / square (.call .sinh u)))
  | .asinh => .ok (du / .call .sqrt (square u + 1))
  | .acosh => .ok (du / (.call .sqrt (u - 1) * .call .sqrt (u + 1)))
  | .atanh => .ok (du / (1 - square u))
  | .exp => .ok (.call .exp u * du)
  | .log => .ok (du / u)
  | .sqrt => .ok (du / (.two * .call .sqrt u))
  | .abs => .ok (.call .re (.call .conj u * du) / .call .abs u)
  | .arg => .ok (.call .im (du / u))
  | .re => .ok (.call .re du)
  | .im => .ok (.call .im du)
  | .conj => .ok (.call .conj du)
  | .unknown => .error (.unknownFunction Func.unknown.token)

namespace Tree

/-- The derivative of a tree in the variable `name`. -/
def derivative (name : String) : Tree α → Except Error (Tree α)
  | .node (.num _) _ => .ok 0
  | .node (.var v) _ => .ok (if v = name then 1 else 0)
  | .node (.operator _) [operand] => do
    let d ← derivative name operand
    return -d
  | .node (.operator o) [l, r] => do
    let dl ← derivative name l
    let dr ← derivative name r
    o.derivative name l r dl dr
  | .node (.operator _) cs => .error (.malformedNode cs.length)
  | .node (.func f) [u] => do
    let du ← derivative name u
    f.derivative u du
  | .node (.func _) cs => .error (.malformedNode cs.length)

/-- The derivative of order `n`. Every derivative on the way is simplified by one pass. -/
def nthDerivative (name : String) : Nat → Tree α → Except Error (Tree α)
  | 0, t => .ok t
  | n + 1, t => do
    let d ← t.derivative name
    nthDerivative name n d.simplify

/-- The number of passes that simplify a derivative and a Newton map. -/
def newtonPasses : Nat := 16

/-- The map `x - f / f'` of Newton's method in the variable `name`. -/
def newtonMap (name : String) (f : Tree α) : Except Error (Tree α) := do
  let d ← f.derivative name
  let d' := (d.simplifyTimes newtonPasses).1
  return ((var name - f / d').simplifyTimes newtonPasses).1

end Tree

/-- The larger of two numbers; an undefined one does not count. -/
def maxDefined (x y : Float) : Float := if x.isNaN || x < y then y else x

/-- The greatest distance, at the points `xs`, between the derivative of `t` and the difference
quotient over `step` on either side. -/
def Tree.derivativeDeviation {β : Type _} [Numeral β] (t : Tree β) (name : String)
    (b : Bindings β) (xs : List Float) (step : Float) : Except Error Float := do
  let d ← t.derivative name
  xs.foldlM (fun greatest x => do
    let slope ← d.toFunction name b (Numeral.ofReal x)
    let ahead ← t.toFunction name b (Numeral.ofReal (x + step))
    let behind ← t.toFunction name b (Numeral.ofReal (x - step))
    let quotient := (ahead - behind) / Numeral.ofReal (2.0 * step)
    return maxDefined greatest (Numeral.normSq (slope - quotient)).sqrt) 0.0

end FractalFormula
