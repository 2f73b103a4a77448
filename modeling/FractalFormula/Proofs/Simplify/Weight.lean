import Mathlib
import FractalFormula.Proofs.Simplify.Recursion
import FractalFormula.Proofs.Simplify.Rules
import FractalFormula.Proofs.Tree.Equality

/-!
# The weight of a tree

A number that every rule of simplification makes smaller, at any node of any tree. The size does
not: `x+x` and `2*x`, `x*x` and `x^2`, `x^(-1)` and `1/x`, `(a^b)^c` and `a^(b*c)` are of one size
if `x` is a leaf. So a sum weighs more than a product, and a product more than a quotient; and since
products become powers and the exponents of powers become products, a power counts its base twice
instead of weighing much itself.

The weight is a matter of structure: trees that compare as the same have the same weight
(`weight_eq_of_same`).
-/

namespace FractalFormula.Tree

variable {α : Type _}

/-- What a node weighs beyond its children, whose weights are given. -/
def surcharge : Label α → List Nat → Nat
  | .operator o, [_] => if o = .sub then 1 else 2
  | .operator .add, [_, _] => 4
  | .operator .mul, [_, _] => 3
  | .operator .pow, [base, _] => base + 1
  | _, _ => 1

mutual

/-- The weight of a tree. -/
def weight : Tree α → Nat
  | .node l cs => (weights cs).sum + surcharge l (weights cs)

/-- The weights of a list of trees. -/
def weights : List (Tree α) → List Nat
  | [] => []
  | t :: ts => t.weight :: weights ts

end

/-! ### Node by node -/

section

variable (l r t : Tree α)

@[simp]
theorem weight_num (x : α) : (num x).weight = 1 := rfl

@[simp]
theorem weight_one_child (o : Operator) :
    (Tree.node (.operator o) [t]).weight = t.weight + if o = .sub then 1 else 2 := rfl

@[simp]
theorem weight_add : (l + r).weight = l.weight + r.weight + 4 := rfl

@[simp]
theorem weight_sub : (l - r).weight = l.weight + r.weight + 1 := rfl

@[simp]
theorem weight_mul : (l * r).weight = l.weight + r.weight + 3 := rfl

@[simp]
theorem weight_div : (l / r).weight = l.weight + r.weight + 1 := rfl

@[simp]
theorem weight_pow : (l.pow r).weight = l.weight + r.weight + (l.weight + 1) := rfl

theorem surcharge_pos (l : Label α) (ws : List Nat) : 0 < surcharge l ws := by
  rw [surcharge.eq_def]
  split
  · split <;> omega
  · omega
  · omega
  · omega
  · omega

theorem weight_pos : 0 < t.weight := by
  obtain ⟨l, cs⟩ := t
  have h := surcharge_pos l (weights cs)
  rw [weight]
  omega

theorem weight_lt_one_child (o : Operator) : t.weight < (Tree.node (.operator o) [t]).weight := by
  rw [weight_one_child]
  split <;> omega

end

theorem weights_eq_map (cs : List (Tree α)) : weights cs = cs.map weight := by
  induction cs with
  | nil => rfl
  | cons c cs ih => rw [weights, ih, List.map_cons]

/-! ### In every context -/

theorem surcharge_le (l : Label α) {ws vs : List Nat} (h : List.Forall₂ (· ≤ ·) ws vs) :
    surcharge l ws ≤ surcharge l vs := by
  rcases h with _ | ⟨hw, _ | ⟨_, _ | ⟨_, _⟩⟩⟩
  · exact Nat.le_refl _
  · cases l <;> exact Nat.le_refl _
  · cases l with
    | operator o => cases o <;> simp [surcharge, hw]
    | _ => exact Nat.le_refl _
  · cases l with
    | operator o => cases o <;> exact Nat.le_refl _
    | _ => exact Nat.le_refl _

section

variable {l : Label α} {cs : List (Tree α)} {change : Tree α → Tree α}

theorem surcharge_map_le (h : ∀ c ∈ cs, (change c).weight ≤ c.weight) :
    surcharge l (weights (cs.map change)) ≤ surcharge l (weights cs) := by
  refine surcharge_le l ?_
  rw [weights_eq_map, weights_eq_map, List.map_map, List.forall₂_map_left_iff,
    List.forall₂_map_right_iff, List.forall₂_same]
  exact h

/-- A node weighs less as soon as one of its children does and none weighs more. -/
theorem weight_node_map_lt (h : ∀ c ∈ cs, (change c).weight ≤ c.weight)
    (hlt : ∃ c ∈ cs, (change c).weight < c.weight) :
    (Tree.node l (cs.map change)).weight < (Tree.node l cs).weight := by
  have hsum : (weights (cs.map change)).sum < (weights cs).sum := by
    rw [weights_eq_map, weights_eq_map, List.map_map]
    exact List.sum_lt_sum _ _ h hlt
  have hsurcharge : surcharge l (weights (cs.map change)) ≤ surcharge l (weights cs) :=
    surcharge_map_le h
  rw [weight, weight]
  omega

end

/-! ### Trees of the same structure -/

section

variable [BEq α]

theorem surcharge_eq_of_sameLabel {l m : Label α} (h : sameLabel l m) (ws : List Nat) :
    surcharge l ws = surcharge m ws := by
  unfold sameLabel at h
  split at h
  · rw [of_decide_eq_true h]
  · rfl
  · rfl
  · rfl
  · cases h

mutual

theorem weight_eq_of_same : ∀ {s t : Tree α}, s.same t → s.weight = t.weight
  | .node l cs, .node m ds, h => by
    obtain ⟨hlabel, hcs⟩ := same_iff.mp h
    rw [weight, weight, weights_eq_of_sameAll hcs, surcharge_eq_of_sameLabel hlabel]

theorem weights_eq_of_sameAll : ∀ {ss ts : List (Tree α)}, sameAll ss ts → weights ss = weights ts
  | [], [], _ => rfl
  | s :: ss, t :: ts, h => by
    obtain ⟨hs, hss⟩ := sameAll_cons_iff.mp h
    rw [weights, weights, weight_eq_of_same hs, weights_eq_of_sameAll hss]

end

end

/-! ### Every rule makes a tree lighter -/

section

variable [Scalar α]

theorem weight_negate_le (t : Tree α) : (negate t).weight ≤ t.weight + 1 := by
  rw [negate.eq_def]
  split
  · exact Nat.le_add_left 1 _
  · rw [weight_one_child]
    omega
  · exact Nat.le_refl _

section

variable {l r : Tree α}

theorem weight_reduceSum_lt (h : Identity (.operator .add) [l, r]) :
    (reduceSum l r).weight < (l + r).weight := by
  have hpos := weight_pos r
  rw [weight_add]
  unfold reduceSum
  split_ifs with hr hl hsame
  · omega
  · omega
  · rw [weight_mul, two, weight_num]
    omega
  · cases h <;> contradiction

theorem weight_reduceDifference_lt (h : Identity (.operator .sub) [l, r]) :
    (reduceDifference l r).weight < (l - r).weight := by
  have hpos := weight_pos l
  have hnegate := weight_negate_le r
  rw [weight_sub]
  unfold reduceDifference
  split_ifs with hr hl hsame
  · omega
  · omega
  · show 1 < _
    omega
  · cases h <;> contradiction

theorem weight_reduceProduct_lt (h : Identity (.operator .mul) [l, r]) :
    (reduceProduct l r).weight < (l * r).weight := by
  have hl := weight_negate_le l
  have hr := weight_negate_le r
  rw [weight_mul]
  unfold reduceProduct
  split_ifs with hzero hone hone' hminus hminus' hsame
  · show 1 < _
    omega
  · omega
  · omega
  · omega
  · omega
  · have heq := weight_eq_of_same hsame
    rw [weight_pow, two, weight_num]
    omega
  · rw [Bool.or_eq_true, not_or] at hzero
    obtain ⟨hzero, hzero'⟩ := hzero
    cases h <;> contradiction

theorem weight_reduceQuotient_lt (h : Identity (.operator .div) [l, r]) :
    (reduceQuotient l r).weight < (l / r).weight := by
  have hl := weight_pos l
  have hr := weight_pos r
  have hnegate := weight_negate_le l
  rw [weight_div]
  unfold reduceQuotient
  split_ifs with hone hminus hsame
  · omega
  · omega
  · show 1 < _
    omega
  · cases h <;> contradiction

/-- The product of the exponents is lighter than the power that goes away. -/
theorem weight_reducePower_lt {simplify : Tree α → Option (Tree α)}
    (h : Identity (.operator .pow) [l, r])
    (hsimplify : ∀ a b, l = .node (.operator .pow) [a, b] →
      ∀ s ∈ simplify (b * r), s.weight ≤ (b * r).weight) :
    ∀ s ∈ reducePower simplify l r, s.weight < (l.pow r).weight := by
  have hl := weight_pos l
  have hr := weight_pos r
  rw [weight_pow]
  unfold reducePower
  split_ifs with hzero hbase hbase' hone hminus
  · rintro _ ⟨⟩
    show 1 < _
    omega
  · rintro _ ⟨⟩
    show 1 < _
    omega
  · rintro _ ⟨⟩
    show 1 < _
    omega
  · rintro _ ⟨⟩
    omega
  · rintro _ ⟨⟩
    show 1 + l.weight + 1 < _
    omega
  · split
    · next a b =>
      intro s hs
      obtain ⟨e, he, rfl⟩ := Option.map_eq_some_iff.mp hs
      have ha := weight_pos a
      have hproduct := hsimplify a b rfl e he
      have hpower : (Tree.node (.operator .pow) [a, b]).weight =
        a.weight + b.weight + (a.weight + 1) := rfl
      rw [weight_mul] at hproduct
      rw [weight_pow]
      omega
    · next hnested =>
      cases h with
      | pow_pow a b c => exact absurd rfl (hnested a b)
      | _ => contradiction

end

section

variable {l : Label α} {cs : List (Tree α)}

theorem Folds.weight_lt {z : α} (h : Folds l cs z) : 1 < (Tree.node l cs).weight := by
  have hsurcharge := surcharge_pos l (weights cs)
  have hsum : 0 < (weights cs).sum := by cases h <;> simp [weights]
  rw [weight]
  omega

/-- Every rule makes a tree lighter, if simplification makes no smaller tree heavier. -/
theorem weight_reduce_lt {simplify : Tree α → Option (Tree α)} (h : Reducible l cs)
    (hsimplify : ∀ t, t.size < (Tree.node l cs).size →
      ∀ s ∈ simplify t, s.weight ≤ t.weight) :
    ∀ s ∈ reduce simplify l cs, s.weight < (Tree.node l cs).weight := by
  unfold reduce
  split
  · next z hz =>
    rintro _ ⟨⟩
    exact (folds_of_fold? hz).weight_lt
  · next hfold =>
    cases h with
    | fold hfolds => cases hfold.symm.trans hfolds.fold?_eq
    | @sign o t ho =>
      rintro _ ⟨⟩
      have hnegate := weight_negate_le t
      rw [weight_one_child, if_neg ho]
      omega
    | identity h =>
      split
      · next o s =>
        rintro _ ⟨⟩
        cases h with
        | neg_neg _ p t => exact (weight_lt_one_child t p).trans (weight_lt_one_child _ o)
      · rintro _ ⟨⟩
        exact weight_reduceSum_lt h
      · rintro _ ⟨⟩
        exact weight_reduceDifference_lt h
      · rintro _ ⟨⟩
        exact weight_reduceProduct_lt h
      · rintro _ ⟨⟩
        exact weight_reduceQuotient_lt h
      · next b e =>
        refine weight_reducePower_lt h fun a c hb => hsimplify _ ?_
        subst hb
        have ha := size_pos a
        have hproduct : (c * e).size = 1 + (c.size + e.size) := rfl
        rw [hproduct, size_two_children, size_two_children]
        omega
      · cases h <;> simp_all

end

end

end FractalFormula.Tree
