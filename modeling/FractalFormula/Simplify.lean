import FractalFormula.Simplify.Size

/-!
# Simplification

One pass, by the rules for a node over simplified children, and any number of passes until nothing
changes.
-/

namespace FractalFormula.Tree

variable {α : Type _} [Scalar α]

/-- One pass of simplification. As many turns as the tree has nodes suffice. -/
def simplify (t : Tree α) : Tree α :=
  (simplifyWithin t.size t).get (isSome_simplifyWithin (Nat.le_refl _))

/-- Passes until nothing changes, and at most the given number. The result comes with the
number of passes that changed the tree. -/
def simplifyTimes : Nat → Tree α → Tree α × Nat
  | 0, t => (t, 0)
  | passes + 1, t =>
    let t' := t.simplify
    if t' == t then (t', 0)
    else
      let (result, changed) := simplifyTimes passes t'
      (result, changed + 1)

end FractalFormula.Tree
