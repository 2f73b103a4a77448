import Mathlib
import FractalFormula.Proofs.Evaluation.Nodes
import FractalFormula.Proofs.Simplify.Rules
import FractalFormula.Proofs.Simplify.Value
import FractalFormula.Proofs.Tree.Acceptance
import FractalFormula.Scalar.ComplexFloat

/-!
# Simplification of constants

Nothing is asked of the arithmetic here, so a value is kept only where simplification computes what
evaluation computes. It does so where it folds, and folding goes before every identity: a tree
without variables, all of whose subtrees are finite, becomes the literal of its value.
-/

namespace FractalFormula.Tree

section

variable {α : Type _} [Scalar α] {value? : String → Option α}

/-- An inner node over numbers folds if its value is finite. -/
theorem leaf_or_folds_of_evaluateWith {l : Label α} {cs : List (Tree α)} {x : α}
    (hcs : ∀ c ∈ cs, ∃ y, c = num y) (hx : (Tree.node l cs).evaluateWith value? = .ok x)
    (hfinite : Scalar.isFinite x) : (∃ y, l = .num y) ∨ (∃ v, l = .var v) ∨ Folds l cs x := by
  have haccepted := isOk_evaluateWith_iff.mp (isOk_iff.mpr ⟨x, hx⟩)
  cases haccepted with
  | num y cs => exact .inl ⟨y, rfl⟩
  | @var v cs _ => exact .inr (.inl ⟨v, rfl⟩)
  | @negation o t _ =>
    obtain ⟨y, rfl⟩ := hcs t (by simp)
    obtain rfl := Except.ok.inj hx
    exact .inr (.inr (.negation o y))
  | @binary o s t ho _ _ =>
    obtain ⟨y, rfl⟩ := hcs s (by simp)
    obtain ⟨z, rfl⟩ := hcs t (by simp)
    obtain ⟨w, hw⟩ := Option.isSome_iff_exists.mp ((isSome_operate?_iff (x := y) (y := z)).mpr ho)
    obtain rfl := Except.ok.inj ((evaluateWith_binary rfl rfl hw).symm.trans hx)
    exact .inr (.inr (.binary hw hfinite))
  | @call f u hf _ =>
    obtain ⟨y, rfl⟩ := hcs u (by simp)
    rw [evaluateWith] at hx
    · obtain rfl := Except.ok.inj hx
      exact .inr (.inr (.call hf hfinite))
    · exact hf

omit [Scalar α] in
theorem namesAll_eq_nil_iff {ts : List (Tree α)} : namesAll ts = [] ↔ ∀ t ∈ ts, t.names = [] := by
  induction ts with
  | nil => simp [namesAll]
  | cons t ts ih => simp [namesAll, ih]

omit [Scalar α] in
theorem names_eq_nil_iff {l : Label α} {cs : List (Tree α)} :
    (Tree.node l cs).names = [] ↔ (∀ v, l ≠ .var v) ∧ ∀ c ∈ cs, c.names = [] := by
  cases l with
  | var v => simp [names]
  | _ => simp [names, namesAll_eq_nil_iff]

/-- A tree without variables, all of whose subtrees have finite values, becomes the literal of its
value in a single pass, and so does every node on the way: folding goes before the identities. That
operators and functions have children that fit them, and are known, is part of having a value. -/
theorem simplify_eq_value (t : Tree α) (b : Bindings α) (hnames : t.names = []) (hbare : t.Bare)
    (hfinite : t.Everywhere fun l cs =>
      ∃ x, (Tree.node l cs).evaluate b = .ok x ∧ Scalar.isFinite x) :
    ∃ x, t.evaluate b = .ok x ∧ t.simplify = num x := by
  induction hfinite with
  | @node l cs hnode _ ih =>
    obtain ⟨x, hx, hxfinite⟩ := hnode
    obtain ⟨hvar, hnames⟩ := names_eq_nil_iff.mp hnames
    obtain ⟨hleaf, hbare⟩ := everywhere_iff.mp hbare
    refine ⟨x, hx, ?_⟩
    have hchildren : ∀ c ∈ cs, ∃ y, c.evaluate b = .ok y ∧ c.simplify = num y :=
      fun c hc => ih c hc (hnames c hc) (hbare c hc)
    have hnumbers : ∀ c ∈ cs.map simplify, ∃ y, c = num y := by
      intro d hd
      obtain ⟨c, hc, rfl⟩ := List.mem_map.mp hd
      obtain ⟨y, -, hy⟩ := hchildren c hc
      exact ⟨y, hy⟩
    have hvalue : (Tree.node l (cs.map simplify)).evaluateWith b.get? = .ok x := by
      refine (evaluateWith_map fun c hc => ?_).trans hx
      obtain ⟨y, hy, hsimplify⟩ := hchildren c hc
      rw [hsimplify]
      exact hy.symm
    rcases leaf_or_folds_of_evaluateWith hnumbers hvalue hxfinite with ⟨y, rfl⟩ | ⟨v, rfl⟩ | hfolds
    · obtain rfl := hleaf (.inl ⟨y, rfl⟩)
      obtain rfl := Except.ok.inj hx
      exact simplify_num _
    · exact absurd rfl (hvar v)
    · exact simplify_eq_of_folds hfolds

end

/-- The product of `1 + 2i` and `3`, negated, less the conjugate of the imaginary unit. -/
def negatedProduct : Tree ComplexFloat :=
  -(num ⟨1.0, 2.0⟩ * num ⟨3.0, 0.0⟩) - call .conj (num ⟨0.0, 1.0⟩)

theorem simplify_eq_value_negatedProduct :
    negatedProduct.evaluate .empty = .ok ⟨-3.0, -5.0⟩ ∧
      negatedProduct.simplify = num ⟨-3.0, -5.0⟩ := by
  have hvalue : negatedProduct.evaluate .empty = .ok ⟨-3.0, -5.0⟩ := rfl
  have hnum (z : ComplexFloat) : (num z).Bare := everywhere_leaf_iff.mpr fun _ => rfl
  have hbare : negatedProduct.Bare :=
    closed_bare.sub (closed_bare.negation (closed_bare.mul (hnum _) (hnum _)))
      (closed_bare.call (by decide) (hnum _))
  obtain ⟨x, hx, hsimplify⟩ := simplify_eq_value negatedProduct .empty rfl hbare <| by
    refine everywhere_two_iff.mpr ⟨⟨_, rfl, rfl⟩, everywhere_one_iff.mpr ⟨⟨_, rfl, rfl⟩, ?_⟩, ?_⟩
    · exact everywhere_two_iff.mpr ⟨⟨_, rfl, rfl⟩, everywhere_leaf_iff.mpr ⟨_, rfl, rfl⟩,
        everywhere_leaf_iff.mpr ⟨_, rfl, rfl⟩⟩
    · exact everywhere_one_iff.mpr ⟨⟨_, rfl, rfl⟩, everywhere_leaf_iff.mpr ⟨_, rfl, rfl⟩⟩
  obtain rfl := Except.ok.inj (hvalue.symm.trans hx)
  exact ⟨hvalue, hsimplify⟩

end FractalFormula.Tree
