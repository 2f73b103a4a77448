import FractalFormula.Scalar.Basic
import FractalFormula.Text.Order

/-!
# Expression trees

A tree is a label with any number of children in reading order. Trees that come from a
formula have two children under an operator, or one under a minus sign, one under a
function, and none under a variable or a number; trees built by hand may have any shape,
and every pass says what it does with them.

An operator with a single child is a negation, whatever the operator.
-/

namespace FractalFormula

/-- What a node stands for. -/
inductive Label (α : Type _) where
  | operator (o : Operator)
  | func (f : Func)
  | var (name : String)
  | num (x : α)
deriving DecidableEq, Repr

/-- An expression tree with numbers from `α`. -/
inductive Tree (α : Type _) where
  | node (label : Label α) (children : List (Tree α))

namespace Tree

variable {α : Type _}

/-! ### Building -/

/-- A number. -/
def num (x : α) : Tree α := .node (.num x) []

/-- A variable. -/
def var (name : String) : Tree α := .node (.var name) []

/-- The call of a function. -/
def call (f : Func) (argument : Tree α) : Tree α := .node (.func f) [argument]

/-- An operator between two operands. -/
def binary (o : Operator) (left right : Tree α) : Tree α := .node (.operator o) [left, right]

/-- A minus sign before an operand. -/
def negation (operand : Tree α) : Tree α := .node (.operator .sub) [operand]

instance : Add (Tree α) := ⟨binary .add⟩
instance : Sub (Tree α) := ⟨binary .sub⟩
instance : Mul (Tree α) := ⟨binary .mul⟩
instance : Div (Tree α) := ⟨binary .div⟩
instance : Neg (Tree α) := ⟨negation⟩

/-- A power. -/
def pow (base exponent : Tree α) : Tree α := binary .pow base exponent

/-! ### Taking apart -/

/-- The label of the root. -/
def label : Tree α → Label α
  | .node l _ => l

/-- The children of the root. -/
def children : Tree α → List (Tree α)
  | .node _ cs => cs

/-- The left one of exactly two children. -/
def left? (t : Tree α) : Option (Tree α) :=
  match t.children with
  | [l, _] => some l
  | _ => none

/-- The right one of exactly two children. -/
def right? (t : Tree α) : Option (Tree α) :=
  match t.children with
  | [_, r] => some r
  | _ => none

/-- The only child. -/
def operand? (t : Tree α) : Option (Tree α) :=
  match t.children with
  | [c] => some c
  | _ => none

/-- Whether the root has no children. -/
def isLeaf (t : Tree α) : Bool := t.children.isEmpty

/-- Whether the root is an operator with a single child. -/
def isNegation : Tree α → Bool
  | .node (.operator _) [_] => true
  | _ => false

/-- The number a leaf holds. -/
def number? : Tree α → Option α
  | .node (.num x) [] => some x
  | _ => none

/-! ### Measures and names -/

mutual

/-- The number of nodes. -/
def size : Tree α → Nat
  | .node _ cs => 1 + sizeAll cs

/-- The number of nodes of a list of trees. -/
def sizeAll : List (Tree α) → Nat
  | [] => 0
  | t :: ts => t.size + sizeAll ts

end

mutual

/-- The number of nodes on the longest way down. -/
def depth : Tree α → Nat
  | .node _ cs => 1 + depthAll cs

/-- The greatest depth in a list of trees. -/
def depthAll : List (Tree α) → Nat
  | [] => 0
  | t :: ts => max t.depth (depthAll ts)

end

mutual

/-- Whether `name` occurs. Children of a variable do not count. -/
def mentions (name : String) : Tree α → Bool
  | .node (.var v) _ => v = name
  | .node _ cs => mentionsAny name cs

/-- Whether `name` occurs in one of the trees. -/
def mentionsAny (name : String) : List (Tree α) → Bool
  | [] => false
  | t :: ts => mentions name t || mentionsAny name ts

end

mutual

/-- The names of all variables in reading order, with repetitions. -/
def names : Tree α → List String
  | .node (.var v) cs => v :: namesAll cs
  | .node _ cs => namesAll cs

/-- The names of all variables of a list of trees. -/
def namesAll : List (Tree α) → List String
  | [] => []
  | t :: ts => t.names ++ namesAll ts

end

/-- `name` put into its place in a list in ascending order, unless it is there. -/
def insertName (name : String) : List String → List String
  | [] => [name]
  | n :: ns =>
    match Text.order name.toList n.toList with
    | .lt => name :: n :: ns
    | .eq => n :: ns
    | .gt => n :: insertName name ns

/-- The names of all variables in ascending order, each once. -/
def nameSet (t : Tree α) : List String := t.names.foldr insertName []

/-! ### Comparing -/

/-- Whether two labels are the same, numbers being compared as the scalars are. -/
def sameLabel [BEq α] : Label α → Label α → Bool
  | .operator o, .operator p => o = p
  | .func f, .func g => f = g
  | .var m, .var n => m = n
  | .num x, .num y => x == y
  | _, _ => false

mutual

/-- Whether two trees have the same structure. A tree that holds an undefined number differs
from itself. -/
def same [BEq α] : Tree α → Tree α → Bool
  | .node l cs, .node m ds => sameLabel l m && sameAll cs ds

/-- Whether two lists of trees have the same structure. -/
def sameAll [BEq α] : List (Tree α) → List (Tree α) → Bool
  | [], [] => true
  | c :: cs, d :: ds => same c d && sameAll cs ds
  | _, _ => false

end

instance [BEq α] : BEq (Tree α) := ⟨same⟩

/-! ### Numbers -/

section Scalar

variable [Scalar α]

instance : Zero (Tree α) := ⟨num 0⟩
instance : One (Tree α) := ⟨num 1⟩

/-- The number two as a tree. -/
def two : Tree α := num Scalar.two

/-- Whether the tree is the number zero. -/
def isZero (t : Tree α) : Bool := t.number?.any Scalar.isZero

/-- Whether the tree is the number one. -/
def isOne (t : Tree α) : Bool := t.number?.any Scalar.isOne

/-- Whether the tree is the number minus one. -/
def isMinusOne (t : Tree α) : Bool := t.number?.any Scalar.isMinusOne

end Scalar

end Tree

end FractalFormula
