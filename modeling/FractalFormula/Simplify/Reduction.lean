import FractalFormula.Tree.Basic

/-!
# The rules of one pass

One pass of simplification reduces a tree from its leaves to its root: children first, and then
the node by the first rule that fits.

* A node all of whose children are numbers becomes a number, if its value is finite; so
  `1/0` stays as it is. A minus sign before a number always goes into it.
* `x+0`, `0+x` and `x-0` become `x`, `0-x` becomes `-x`, and `-(-x)` becomes `x`.
* `x*1`, `1*x` and `x/1` become `x`, `x*0` and `0*x` become `0`, and `x*(-1)`, `(-1)*x` and
  `x/(-1)` become `-x`.
* Equal operands combine: `x+x` to `2*x`, `x-x` to `0`, `x*x` to `x^2`, `x/x` to `1`.
* `x^0` and `1^x` become `1`, `0^x` becomes `0`, `x^1` becomes `x`, `x^(-1)` becomes `1/x`,
  and `(a^b)^c` becomes `a^(b*c)`, whose exponent is simplified again.

A reduced node is not reduced again in the same pass, so another pass may find more to
do. The rules are a fixed set: `x+1-(1+x)` stays as it is.

The recursion is given a number of turns, and has no result if they are used up.
-/

namespace FractalFormula.Tree

variable {α : Type _} [Scalar α]

/-- The number that a node over numbers becomes. -/
def fold? : Label α → List (Tree α) → Option α
  | .operator _, [t] => t.number?.map Scalar.negated
  | .operator o, [l, r] => do
    let x ← l.number?
    let y ← r.number?
    let z ← Scalar.operate? o x y
    if Scalar.isFinite z then some z else none
  | .func .unknown, _ => none
  | .func f, [t] => do
    let x ← t.number?
    let y := Scalar.apply f x
    if Scalar.isFinite y then some y else none
  | _, _ => none

/-- The negation of a tree: a number is negated, and a minus sign is taken off. -/
def negate : Tree α → Tree α
  | .node (.num x) [] => num (Scalar.negated x)
  | .node (.operator _) [t] => t
  | t => negation t

/-- A sum. -/
def reduceSum (l r : Tree α) : Tree α :=
  if r.isZero then l
  else if l.isZero then r
  else if l == r then two * l
  else l + r

/-- A difference. -/
def reduceDifference (l r : Tree α) : Tree α :=
  if r.isZero then l
  else if l.isZero then negate r
  else if l == r then 0
  else l - r

/-- A product. -/
def reduceProduct (l r : Tree α) : Tree α :=
  if l.isZero || r.isZero then 0
  else if r.isOne then l
  else if l.isOne then r
  else if r.isMinusOne then negate l
  else if l.isMinusOne then negate r
  else if l == r then l.pow two
  else l * r

/-- A quotient. -/
def reduceQuotient (l r : Tree α) : Tree α :=
  if r.isOne then l
  else if r.isMinusOne then negate l
  else if l == r then 1
  else l / r

/-- A power. The exponent of a power of a power is a new product, for which `simplify` is
called. -/
def reducePower (simplify : Tree α → Option (Tree α)) (base exponent : Tree α) :
    Option (Tree α) :=
  if exponent.isZero then some 1
  else if base.isZero then some 0
  else if base.isOne then some 1
  else if exponent.isOne then some base
  else if exponent.isMinusOne then some (1 / base)
  else
    match base with
    | .node (.operator .pow) [a, b] => (simplify (b * exponent)).map a.pow
    | base => some (base.pow exponent)

/-- A node over simplified children. -/
def reduce (simplify : Tree α → Option (Tree α)) (l : Label α) (cs : List (Tree α)) :
    Option (Tree α) :=
  match fold? l cs with
  | some x => some (num x)
  | none =>
    match l, cs with
    | .operator _, [t] => some (negate t)
    | .operator .add, [a, b] => some (reduceSum a b)
    | .operator .sub, [a, b] => some (reduceDifference a b)
    | .operator .mul, [a, b] => some (reduceProduct a b)
    | .operator .div, [a, b] => some (reduceQuotient a b)
    | .operator .pow, [a, b] => reducePower simplify a b
    | l, cs => some (.node l cs)

/-- Simplification in a given number of turns, one for every level of the recursion. There is no
result if the turns do not suffice. -/
def simplifyWithin : Nat → Tree α → Option (Tree α)
  | 0, _ => none
  | turns + 1, .node l cs => do
    let cs ← cs.mapM (simplifyWithin turns)
    reduce (simplifyWithin turns) l cs

end FractalFormula.Tree
