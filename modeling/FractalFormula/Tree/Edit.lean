import FractalFormula.Tree.Basic

/-!
# Editing trees

A node is addressed by the indices of the children on the way from the root. Editing
changes one node and leaves the rest of the tree as it is.
-/

namespace FractalFormula.Tree

variable {α : Type _}

/-- The node at the end of `path`. -/
def at? : Tree α → List Nat → Option (Tree α)
  | t, [] => some t
  | .node _ cs, i :: path => cs[i]?.bind fun c => c.at? path

/-- The tree with the node at the end of `path` changed by `edit`. -/
def editAt? (edit : Tree α → Tree α) : List Nat → Tree α → Option (Tree α)
  | [], t => some (edit t)
  | i :: path, .node l cs =>
    cs[i]?.bind fun c => (editAt? edit path c).map fun c' => .node l (cs.set i c')

/-- The tree with another child behind the last. -/
def push (child : Tree α) : Tree α → Tree α
  | .node l cs => .node l (cs ++ [child])

/-- The tree without its last child. -/
def pop : Tree α → Tree α
  | .node l cs => .node l cs.dropLast

/-- The last child. -/
def lastChild? (t : Tree α) : Option (Tree α) := t.children.getLast?

/-- The first child in place of the whole; zero if there is none. -/
def first [Scalar α] (t : Tree α) : Tree α := t.children.headD 0

end FractalFormula.Tree
