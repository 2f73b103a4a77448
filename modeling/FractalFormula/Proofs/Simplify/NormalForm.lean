import Mathlib
import FractalFormula.Proofs.Scalar.Comparable
import FractalFormula.Proofs.Simplify.Weight
import FractalFormula.Proofs.Tree.Closure
import FractalFormula.Scalar.ComplexFloat

/-!
# Simplification reaches a normal form

A tree is in normal form if no rule applies at any node. One pass leaves it alone then, and makes any
other tree lighter (`normal_or_lighter`), although the rules at different nodes of a pass feed each
other and a power of a power calls the pass again. So passes come to an end, at a normal form
(`Comparable.exists_normal`).

The loop of passes ends when two trees compare as the same. This agrees with their being equal where
all numbers equal themselves: a tree with an undefined number never compares as the same.
-/

namespace FractalFormula.Tree

variable {α : Type _} [Scalar α]

/-- No rule applies at any node. -/
def Normal (t : Tree α) : Prop := t.Everywhere fun l cs => ¬Reducible l cs

/-! ### One pass -/

theorem weight_reduce_le {simplify : Tree α → Option (Tree α)} {l : Label α} {cs : List (Tree α)}
    (hsimplify : ∀ t, t.size < (Tree.node l cs).size → ∀ s ∈ simplify t, s.weight ≤ t.weight) :
    ∀ s ∈ reduce simplify l cs, s.weight ≤ (Tree.node l cs).weight := by
  by_cases h : Reducible l cs
  · exact fun s hs => Nat.le_of_lt (weight_reduce_lt h hsimplify s hs)
  · rw [reduce_eq_of_not_reducible simplify h]
    rintro _ ⟨⟩
    exact Nat.le_refl _

theorem Normal.simplify_eq {t : Tree α} (h : t.Normal) : t.simplify = t := by
  induction h with
  | @node l cs hnode _ ih =>
    have hchildren : cs.map simplify = cs := (List.map_congr_left ih).trans (List.map_id' cs)
    have hsimplify := simplify_node l cs
    rw [hchildren, reduce_eq_of_not_reducible _ hnode] at hsimplify
    exact (Option.some.inj hsimplify).symm

/-- A pass makes a tree lighter that is not in normal form. The induction is on the size: the
exponent for which a power of a power calls the pass is smaller than the power, though it is no part
of it. -/
theorem normal_or_lighter (t : Tree α) : t.Normal ∨ t.simplify.weight < t.weight := by
  induction hn : t.size using Nat.strong_induction_on generalizing t with
  | h n ih =>
    subst hn
    have hle : ∀ s : Tree α, s.size < t.size → s.simplify.weight ≤ s.weight := by
      intro s hs
      rcases ih s.size hs s rfl with hnormal | hlt
      · rw [hnormal.simplify_eq]
      · exact Nat.le_of_lt hlt
    obtain ⟨l, cs⟩ := t
    have hsize : (Tree.node l (cs.map simplify)).size ≤ (Tree.node l cs).size :=
      Nat.add_le_add_left (sizeAll_map_le fun c _ => size_simplify_le c) 1
    have hinner : ∀ s : Tree α, s.size < (Tree.node l (cs.map simplify)).size →
        ∀ s' ∈ some s.simplify, s'.weight ≤ s.weight := by
      rintro s hs _ ⟨⟩
      exact hle s (Nat.lt_of_lt_of_le hs hsize)
    have hnode := simplify_node l cs
    by_cases hcs : ∀ c ∈ cs, c.Normal
    · have hchildren : cs.map simplify = cs :=
        (List.map_congr_left fun c hc => (hcs c hc).simplify_eq).trans (List.map_id' cs)
      rw [hchildren] at hnode hinner
      by_cases hreducible : Reducible l cs
      · exact .inr (weight_reduce_lt hreducible hinner _ hnode)
      · exact .inl (.node hreducible hcs)
    · push Not at hcs
      obtain ⟨c, hc, hnormal⟩ := hcs
      have hlt : (Tree.node l (cs.map simplify)).weight < (Tree.node l cs).weight :=
        weight_node_map_lt (fun c hc => hle c (size_lt_of_mem hc))
          ⟨c, hc, (ih c.size (size_lt_of_mem hc) c rfl).resolve_left hnormal⟩
      exact .inr (Nat.lt_of_le_of_lt (weight_reduce_le hinner _ hnode) hlt)

/-- The trees that a pass leaves alone are the normal forms. -/
theorem simplify_eq_self_iff {t : Tree α} : t.simplify = t ↔ t.Normal := by
  refine ⟨fun h => ?_, Normal.simplify_eq⟩
  rcases normal_or_lighter t with hnormal | hlt
  · exact hnormal
  · rw [h] at hlt
    exact absurd hlt (Nat.lt_irrefl _)

/-! ### All passes -/

/-- Every number of the tree equals itself: none is undefined. -/
def Comparable (t : Tree α) : Prop := t.NumbersAre fun x => (x == x) = true

theorem sameLabel_self {l : Label α} (h : ∀ x, l = .num x → (x == x) = true) : sameLabel l l := by
  cases l with
  | num x => exact h x rfl
  | _ => exact decide_eq_true rfl

mutual

theorem Comparable.same_self : ∀ {t : Tree α}, t.Comparable → t.same t
  | .node _ _, h => by
    obtain ⟨hl, hcs⟩ := numbersAre_iff.mp h
    exact same_iff.mpr ⟨sameLabel_self hl, sameAll_self hcs⟩

theorem sameAll_self : ∀ {ts : List (Tree α)}, (∀ t ∈ ts, t.Comparable) → sameAll ts ts
  | [], _ => rfl
  | t :: ts, h => by
    rw [List.forall_mem_cons] at h
    exact sameAll_cons_iff.mpr ⟨Comparable.same_self h.1, sameAll_self h.2⟩

end

theorem Comparable.beq_simplify_iff {t : Tree α} (h : t.Comparable) :
    (t.simplify == t) = true ↔ t.Normal := by
  constructor
  · intro hsame
    rcases normal_or_lighter t with hnormal | hlt
    · exact hnormal
    · rw [weight_eq_of_same hsame] at hlt
      exact absurd hlt (Nat.lt_irrefl _)
  · intro hnormal
    rw [hnormal.simplify_eq]
    exact h.same_self

variable [ComparableScalar α]

theorem closed_comparable : Closed (α := α) Comparable :=
  closed_numbersAre ComparableScalar.beq_self_zero ComparableScalar.beq_self_one
    ComparableScalar.beq_self_two ComparableScalar.beq_self_of_isFinite
    ComparableScalar.beq_self_negated

/-- Passes come to an end at a normal form, and more passes than change the tree change nothing. -/
theorem Comparable.exists_normal {t : Tree α} (h : t.Comparable) :
    ∃ s changed, (∀ passes, changed < passes → t.simplifyTimes passes = (s, changed)) ∧
      s.Normal := by
  induction hn : t.weight using Nat.strong_induction_on generalizing t with
  | h n ih =>
    subst hn
    by_cases hnormal : t.Normal
    · refine ⟨t, 0, fun passes hpasses => ?_, hnormal⟩
      obtain ⟨passes, rfl⟩ := Nat.exists_eq_succ_of_ne_zero (Nat.ne_of_gt hpasses)
      rw [simplifyTimes, if_pos (h.beq_simplify_iff.mpr hnormal), hnormal.simplify_eq]
    · have hlt := (normal_or_lighter t).resolve_left hnormal
      obtain ⟨s, changed, hs, hsnormal⟩ := ih _ hlt (closed_comparable.simplify h) rfl
      refine ⟨s, changed + 1, fun passes hpasses => ?_, hsnormal⟩
      obtain ⟨passes, rfl⟩ := Nat.exists_eq_succ_of_ne_zero (Nat.ne_of_gt (by omega : 0 < passes))
      rw [simplifyTimes, if_neg (mt h.beq_simplify_iff.mp hnormal), hs passes (by omega)]

/-- A pass has a result as soon as it is given as many turns as the tree has nodes, and always the
same one: the node is reduced over its simplified children, with a pass of its own for the product
that a power of a power asks for, and the tree is no larger. Passes settle: there is a number of
passes beyond which the loop ends for want of changes, always with the same tree and the same count,
and no rule applies anywhere in that tree. -/
theorem simplify_reaches_normal_form (t : Tree α) (h : t.Comparable) :
    (∀ turns, t.size ≤ turns → simplifyWithin turns t = some t.simplify) ∧
      reduce (fun s => some s.simplify) t.label (t.children.map simplify) = some t.simplify ∧
      t.simplify.size ≤ t.size ∧
      ∃ s changed, (∀ passes, changed < passes → t.simplifyTimes passes = (s, changed)) ∧
        s.simplify = s ∧ s.Normal := by
  obtain ⟨s, changed, hs, hnormal⟩ := h.exists_normal
  refine ⟨fun turns => simplifyWithin_eq, ?_, size_simplify_le t, s, changed, hs,
    hnormal.simplify_eq, hnormal⟩
  cases t with
  | node l cs => exact simplify_node l cs

/-- The square root of the square of `x`. -/
def rootOfSquare : Tree ComplexFloat := ((var "x").pow two).pow (num ⟨0.5, 0.0⟩)

/-- One pass multiplies the exponents and another one drops the exponent; a third one finds nothing
to do. -/
theorem simplify_reaches_normal_form_rootOfSquare :
    rootOfSquare.Comparable ∧ rootOfSquare.simplify.size ≤ rootOfSquare.size ∧
      (∀ passes, 2 < passes → rootOfSquare.simplifyTimes passes = (var "x", 2)) ∧
      (var "x" : Tree ComplexFloat).Normal := by
  have hcomparable : rootOfSquare.Comparable := by
    unfold Comparable NumbersAre
    decide
  obtain ⟨-, -, hsize, s, changed, hs, -, hnormal⟩ :=
    simplify_reaches_normal_form rootOfSquare hcomparable
  have hthree : rootOfSquare.simplifyTimes (changed + 3) = (var "x", 2) := rfl
  obtain ⟨rfl, rfl⟩ := Prod.mk.inj (hthree.symm.trans (hs (changed + 3) (by omega)))
  exact ⟨hcomparable, hsize, hs, hnormal⟩

end FractalFormula.Tree
