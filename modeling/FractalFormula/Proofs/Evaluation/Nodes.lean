import FractalFormula.Evaluation.Evaluate

/-!
# Values of nodes

The value of a node comes from the values of its children alone.
-/

namespace FractalFormula.Tree

variable {α : Type _} [Scalar α] {value? : String → Option α}

theorem evaluateWith_binary {o : Operator} {l r : Tree α} {x y z : α}
    (hl : l.evaluateWith value? = .ok x) (hr : r.evaluateWith value? = .ok y)
    (hz : Scalar.operate? o x y = some z) : (binary o l r).evaluateWith value? = .ok z := by
  simp only [binary, evaluateWith, hl, hr, bind, Except.bind, hz]
  rfl

/-- Children with the same values give a node the same value. -/
theorem evaluateWith_map {change : Tree α → Tree α} {l : Label α} {cs : List (Tree α)}
    (h : ∀ c ∈ cs, (change c).evaluateWith value? = c.evaluateWith value?) :
    (Tree.node l (cs.map change)).evaluateWith value? = (Tree.node l cs).evaluateWith value? := by
  cases l with
  | num x => rfl
  | var name => rfl
  | operator o =>
    rcases cs with _ | ⟨s, _ | ⟨t, _ | ⟨u, cs⟩⟩⟩
    · rfl
    · simp only [List.map_cons, List.map_nil, evaluateWith, h s (by simp)]
    · simp only [List.map_cons, List.map_nil, evaluateWith, h s (by simp), h t (by simp)]
    · simp [evaluateWith]
  | func f =>
    rcases cs with _ | ⟨s, _ | ⟨t, cs⟩⟩
    · rfl
    · cases f <;> simp only [List.map_cons, List.map_nil, evaluateWith, h s (by simp)]
    · simp [evaluateWith]

end FractalFormula.Tree
