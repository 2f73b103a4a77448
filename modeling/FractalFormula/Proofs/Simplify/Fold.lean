import Mathlib
import FractalFormula.Proofs.Evaluation.Nodes
import FractalFormula.Simplify

/-!
# Folding of constants

A node folds to a number if all its children are numbers and its value is finite; a negation folds
whatever its value. The number is the value of the node (`Folds.evaluateWith`).
-/

namespace FractalFormula.Tree

variable {α : Type _}

theorem number?_eq_some_iff {t : Tree α} {x : α} : t.number? = some x ↔ t = num x := by
  refine ⟨fun h => ?_, fun h => h ▸ rfl⟩
  rw [number?.eq_def] at h
  split at h
  · rw [Option.some.inj h]
    rfl
  · nomatch h

/-- A test of the number that a leaf holds. -/
theorem any_number?_iff {t : Tree α} {p : α → Bool} :
    t.number?.any p ↔ ∃ x, t = num x ∧ p x := by
  rw [Option.any_eq_true]
  simp only [number?_eq_some_iff]

variable [Scalar α]

/-- A node with the given children folds to a number. -/
inductive Folds : Label α → List (Tree α) → α → Prop where
  | negation (o : Operator) (x : α) : Folds (.operator o) [num x] (Scalar.negated x)
  | binary {o : Operator} {x y z : α} : Scalar.operate? o x y = some z → Scalar.isFinite z →
    Folds (.operator o) [num x, num y] z
  | call {f : Func} {x : α} : f ≠ .unknown → Scalar.isFinite (Scalar.apply f x) →
    Folds (.func f) [num x] (Scalar.apply f x)

theorem folds_of_fold? {l : Label α} {cs : List (Tree α)} {z : α} (h : fold? l cs = some z) :
    Folds l cs z := by
  rw [fold?.eq_def] at h
  split at h
  · next o t =>
    obtain ⟨x, hx, rfl⟩ := Option.map_eq_some_iff.mp h
    rw [number?_eq_some_iff.mp hx]
    exact .negation o x
  · next o l r =>
    obtain ⟨x, hx, h⟩ := Option.bind_eq_some_iff.mp h
    obtain ⟨y, hy, h⟩ := Option.bind_eq_some_iff.mp h
    obtain ⟨z', hz, h⟩ := Option.bind_eq_some_iff.mp h
    rw [number?_eq_some_iff.mp hx, number?_eq_some_iff.mp hy]
    split at h
    · next hfinite =>
      obtain rfl := Option.some.inj h
      exact .binary hz hfinite
    · nomatch h
  · nomatch h
  · next f t hf =>
    obtain ⟨x, hx, h⟩ := Option.bind_eq_some_iff.mp h
    rw [number?_eq_some_iff.mp hx]
    simp only at h
    split at h
    · next hfinite =>
      obtain rfl := Option.some.inj h
      exact .call hf hfinite
    · nomatch h
  · nomatch h

theorem Folds.fold?_eq {l : Label α} {cs : List (Tree α)} {z : α} (h : Folds l cs z) :
    fold? l cs = some z := by
  cases h with
  | negation o x => rfl
  | @binary o x y z hz hfinite =>
    show (Scalar.operate? o x y).bind (fun z => if Scalar.isFinite z then some z else none) = _
    rw [hz, Option.bind_some, if_pos hfinite]
  | call hf hfinite =>
    rw [fold?]
    · show (if _ then _ else _) = _
      rw [if_pos hfinite]
    · exact hf

/-- Folding does what evaluation does. -/
theorem Folds.evaluateWith {l : Label α} {cs : List (Tree α)} {z : α} (h : Folds l cs z)
    (value? : String → Option α) : (Tree.node l cs).evaluateWith value? = .ok z := by
  cases h with
  | negation o x => rfl
  | binary hz _ => exact evaluateWith_binary rfl rfl hz
  | call hf hfinite =>
    rw [Tree.evaluateWith]
    · rfl
    · exact hf

end FractalFormula.Tree
