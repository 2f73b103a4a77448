import Mathlib
import FractalFormula.Proofs.Simplify.Fold

/-!
# The rules of simplification

The rules, said without the pass that applies them. A node folds if its children are numbers and its
value is finite (`Folds`), and a minus sign before a number always does. An identity looks at the
shape of the children and never at their values (`Identity`). A minus sign that is written with
another operator is written as a minus sign.

A node at which none of them applies is left as it is (`reduce_eq_of_not_reducible`).
-/

namespace FractalFormula.Tree

variable {α : Type _} [Scalar α]

/-- The left sides of the identities: what stands at a node, and its children. -/
inductive Identity : Label α → List (Tree α) → Prop where
  | add_zero {l r : Tree α} : r.isZero → Identity (.operator .add) [l, r]
  | zero_add {l r : Tree α} : l.isZero → Identity (.operator .add) [l, r]
  | add_self {l r : Tree α} : l == r → Identity (.operator .add) [l, r]
  | sub_zero {l r : Tree α} : r.isZero → Identity (.operator .sub) [l, r]
  | zero_sub {l r : Tree α} : l.isZero → Identity (.operator .sub) [l, r]
  | sub_self {l r : Tree α} : l == r → Identity (.operator .sub) [l, r]
  | neg_neg (o p : Operator) (t : Tree α) : Identity (.operator o) [.node (.operator p) [t]]
  | mul_zero {l r : Tree α} : r.isZero → Identity (.operator .mul) [l, r]
  | zero_mul {l r : Tree α} : l.isZero → Identity (.operator .mul) [l, r]
  | mul_one {l r : Tree α} : r.isOne → Identity (.operator .mul) [l, r]
  | one_mul {l r : Tree α} : l.isOne → Identity (.operator .mul) [l, r]
  | mul_minusOne {l r : Tree α} : r.isMinusOne → Identity (.operator .mul) [l, r]
  | minusOne_mul {l r : Tree α} : l.isMinusOne → Identity (.operator .mul) [l, r]
  | mul_self {l r : Tree α} : l == r → Identity (.operator .mul) [l, r]
  | div_one {l r : Tree α} : r.isOne → Identity (.operator .div) [l, r]
  | div_minusOne {l r : Tree α} : r.isMinusOne → Identity (.operator .div) [l, r]
  | div_self {l r : Tree α} : l == r → Identity (.operator .div) [l, r]
  | pow_zero {b e : Tree α} : e.isZero → Identity (.operator .pow) [b, e]
  | zero_pow {b e : Tree α} : b.isZero → Identity (.operator .pow) [b, e]
  | one_pow {b e : Tree α} : b.isOne → Identity (.operator .pow) [b, e]
  | pow_one {b e : Tree α} : e.isOne → Identity (.operator .pow) [b, e]
  | pow_minusOne {b e : Tree α} : e.isMinusOne → Identity (.operator .pow) [b, e]
  | pow_pow (a b c : Tree α) : Identity (.operator .pow) [.node (.operator .pow) [a, b], c]

/-- The left sides of all rules. -/
inductive Reducible : Label α → List (Tree α) → Prop where
  | fold {l : Label α} {cs : List (Tree α)} {z : α} : Folds l cs z → Reducible l cs
  | sign {o : Operator} (t : Tree α) : o ≠ .sub → Reducible (.operator o) [t]
  | identity {l : Label α} {cs : List (Tree α)} : Identity l cs → Reducible l cs

/-! ### Where no rule applies -/

section

variable {l r : Tree α}

theorem negate_eq {t : Tree α} (hnumber : t.number? = none) (hnegation : t.isNegation = false) :
    negate t = negation t := by
  rw [negate.eq_def]
  split
  · simp [number?] at hnumber
  · simp [isNegation] at hnegation
  · rfl

theorem reduceSum_eq (h : ¬Identity (.operator .add) [l, r]) : reduceSum l r = l + r := by
  unfold reduceSum
  split_ifs with hr hl hsame
  · exact absurd (.add_zero hr) h
  · exact absurd (.zero_add hl) h
  · exact absurd (.add_self hsame) h
  · rfl

theorem reduceDifference_eq (h : ¬Identity (.operator .sub) [l, r]) :
    reduceDifference l r = l - r := by
  unfold reduceDifference
  split_ifs with hr hl hsame
  · exact absurd (.sub_zero hr) h
  · exact absurd (.zero_sub hl) h
  · exact absurd (.sub_self hsame) h
  · rfl

theorem reduceProduct_eq (h : ¬Identity (.operator .mul) [l, r]) : reduceProduct l r = l * r := by
  unfold reduceProduct
  split_ifs with hzero hr hl hr' hl' hsame
  · rcases (Bool.or_eq_true _ _).mp hzero with hzero | hzero
    · exact absurd (.zero_mul hzero) h
    · exact absurd (.mul_zero hzero) h
  · exact absurd (.mul_one hr) h
  · exact absurd (.one_mul hl) h
  · exact absurd (.mul_minusOne hr') h
  · exact absurd (.minusOne_mul hl') h
  · exact absurd (.mul_self hsame) h
  · rfl

theorem reduceQuotient_eq (h : ¬Identity (.operator .div) [l, r]) :
    reduceQuotient l r = l / r := by
  unfold reduceQuotient
  split_ifs with hr hr' hsame
  · exact absurd (.div_one hr) h
  · exact absurd (.div_minusOne hr') h
  · exact absurd (.div_self hsame) h
  · rfl

theorem reducePower_eq {simplify : Tree α → Option (Tree α)}
    (h : ¬Identity (.operator .pow) [l, r]) : reducePower simplify l r = some (l.pow r) := by
  unfold reducePower
  split_ifs with hr hl hl' hr' hr''
  · exact absurd (.pow_zero hr) h
  · exact absurd (.zero_pow hl) h
  · exact absurd (.one_pow hl') h
  · exact absurd (.pow_one hr') h
  · exact absurd (.pow_minusOne hr'') h
  · split
    · exact absurd (.pow_pow _ _ _) h
    · rfl

end

section

variable {l : Label α} {cs : List (Tree α)}

/-- A node that does not fold and at which no identity applies stays, but for the operator with which
a minus sign is written. -/
theorem reduce_eq_of_not_identity (simplify : Tree α → Option (Tree α))
    (hfold : ∀ z, ¬Folds l cs z) (h : ¬Identity l cs) :
    reduce simplify l cs = some (.node l cs) ∨
      ∃ o t, l = .operator o ∧ cs = [t] ∧ reduce simplify l cs = some (negation t) := by
  unfold reduce
  split
  · next z hz => exact absurd (folds_of_fold? hz) (hfold z)
  · split
    · next o t _ =>
      refine .inr ⟨o, t, rfl, rfl, ?_⟩
      cases hnumber : t.number? with
      | some x =>
        obtain rfl := number?_eq_some_iff.mp hnumber
        exact absurd (.negation o x) (hfold _)
      | none =>
        refine congrArg some (negate_eq hnumber ?_)
        rw [isNegation.eq_def]
        split
        · exact absurd (.neg_neg _ _ _) h
        · rfl
    · exact .inl (congrArg some (reduceSum_eq h))
    · exact .inl (congrArg some (reduceDifference_eq h))
    · exact .inl (congrArg some (reduceProduct_eq h))
    · exact .inl (congrArg some (reduceQuotient_eq h))
    · exact .inl (reducePower_eq h)
    · exact .inl rfl

/-- A node at which no rule applies stays as it is. -/
theorem reduce_eq_of_not_reducible (simplify : Tree α → Option (Tree α)) (h : ¬Reducible l cs) :
    reduce simplify l cs = some (.node l cs) := by
  rcases reduce_eq_of_not_identity simplify (fun _ hz => h (.fold hz))
    (fun hidentity => h (.identity hidentity)) with heq | ⟨o, t, rfl, rfl, heq⟩
  · exact heq
  · by_cases ho : o = .sub
    · subst ho
      exact heq
    · exact absurd (.sign t ho) h

end

end FractalFormula.Tree
