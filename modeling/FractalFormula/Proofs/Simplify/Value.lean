import Mathlib
import FractalFormula.Proofs.Scalar.Algebra
import FractalFormula.Proofs.Simplify.Recursion
import FractalFormula.Proofs.Tree.Closure
import FractalFormula.Proofs.Tree.Equality
import FractalFormula.Proofs.Tree.Nodes

/-!
# Simplification keeps values

Simplification keeps the value of a tree in every algebra over the field. Two things are asked of
the tree: numbers and variables have no children, and exponents are integers without variables.

Such an exponent simplifies to a literal (`Whole.simplify_eq`), and this is what makes the rules for
powers right: `0^x` becomes `0` although `0^0` is one, since the exponent of a simplified power
shows whether it is zero. Every other rule is right for the values of its operands alone, one lemma
for each (`Settles.reduceSum` and so on); the induction is on how the tree gets its value
(`DenotesIn.simplify`).
-/

namespace FractalFormula.Tree

/-! ### The trees -/

section

variable {α : Type _}

/-- Numbers and variables have no children. -/
def Bare (t : Tree α) : Prop :=
  t.Everywhere fun l cs => (∃ x, l = .num x) ∨ (∃ name, l = .var name) → cs = []

/-- All exponents have the property `P`. -/
def Exponents (P : Tree α → Prop) (t : Tree α) : Prop :=
  t.Everywhere fun l cs => ∀ b e, l = .operator .pow → cs = [b, e] → P e

/-- Simplification keeps numbers and variables without children. -/
theorem closed_bare [Scalar α] : Closed (α := α) Bare where
  zero := everywhere_leaf_iff.mpr fun _ => rfl
  one := everywhere_leaf_iff.mpr fun _ => rfl
  two := everywhere_leaf_iff.mpr fun _ => rfl
  finite _ := everywhere_leaf_iff.mpr fun _ => rfl
  negated _ := everywhere_leaf_iff.mpr fun _ => rfl
  operand h := (everywhere_one_iff.mp h).2
  operands h := (everywhere_two_iff.mp h).2
  argument h := (everywhere_one_iff.mp h).2
  negation h := everywhere_one_iff.mpr ⟨by simp, h⟩
  binary _ hl hr := everywhere_two_iff.mpr ⟨by simp, hl, hr⟩
  call _ hu := everywhere_one_iff.mpr ⟨by simp, hu⟩
  map hchange h := by
    obtain ⟨hnode, hcs⟩ := everywhere_iff.mp h
    refine everywhere_iff.mpr ⟨fun hl => by rw [hnode hl, List.map_nil], fun c hc => ?_⟩
    obtain ⟨c', hc', rfl⟩ := List.mem_map.mp hc
    exact hchange c' (hcs c' hc')

theorem Exponents.mono {P Q : Tree α → Prop} {t : Tree α} (h : t.Exponents P)
    (hPQ : ∀ e, P e → Q e) : t.Exponents Q :=
  Everywhere.mono h fun _ _ hP b e hl hcs => hPQ e (hP b e hl hcs)

theorem exponents_leaf {P : Tree α → Prop} (l : Label α) : (Tree.node l []).Exponents P :=
  everywhere_leaf_iff.mpr fun _ _ _ h => nomatch h

theorem exponents_one_iff {P : Tree α → Prop} {l : Label α} {t : Tree α} :
    (Tree.node l [t]).Exponents P ↔ t.Exponents P :=
  everywhere_one_iff.trans (and_iff_right fun _ _ _ h => nomatch h)

theorem exponents_two_iff {P : Tree α → Prop} {o : Operator} {l r : Tree α} :
    (Tree.node (.operator o) [l, r]).Exponents P ↔
      (o = .pow → P r) ∧ l.Exponents P ∧ r.Exponents P := by
  refine everywhere_two_iff.trans (and_congr_left fun _ => ⟨fun h ho => ?_, fun h b e hl hcs => ?_⟩)
  · exact h l r (congrArg _ ho) rfl
  · obtain ⟨rfl, rfl⟩ : l = b ∧ r = e := by simpa using hcs
    exact h (Label.operator.inj hl)

end

variable {K : Type _} [Field K] {I : Interpretation K}

/-- An integer without variables. -/
structure Whole (t : Tree (Exact I)) : Prop where
  bare : t.Bare
  value : ∃ n : ℤ, t.evaluate .empty = .ok (.value n)

/-- The literal of an integer. -/
def IsInteger (t : Tree (Exact I)) : Prop := ∃ n : ℤ, t = num (.value n)

/-! ### Trees without variables -/

/-- A tree that has a value although no name has one folds to the literal of its value. -/
theorem Denotes.simplify_eq {t : Tree (Exact I)} {x : K}
    (hx : t.Denotes Bindings.empty.get? x) (hbare : t.Bare) : t.simplify = Tree.num (.value x) := by
  induction hx with
  | num x cs =>
    obtain rfl := (everywhere_iff.mp hbare).1 (.inl ⟨_, rfl⟩)
    exact simplify_num _
  | var cs hname => cases hname
  | @negation t x o _ ih =>
    rw [← Exact.negated_value]
    refine simplify_eq_of_folds ?_
    rw [List.map_singleton, ih (everywhere_one_iff.mp hbare).2]
    exact .negation o _
  | binary _ _ hz ihl ihr =>
    obtain ⟨-, hl, hr⟩ := everywhere_two_iff.mp hbare
    refine simplify_eq_of_folds ?_
    rw [List.map_cons, List.map_singleton, ihl hl, ihr hr]
    exact .binary (Exact.operate?_eq_iff.mpr ⟨_, _, rfl, rfl, hz⟩) rfl
  | @call f u x y hf _ hy ih =>
    have happly : Scalar.apply f (.value x : Exact I) = .value y :=
      Exact.apply_eq_iff.mpr ⟨x, rfl, hy⟩
    refine simplify_eq_of_folds ?_
    rw [List.map_singleton, ih (everywhere_one_iff.mp hbare).2, ← happly]
    exact .call hf (by rw [happly]; rfl)

theorem Whole.simplify_eq {t : Tree (Exact I)} (h : t.Whole) : t.simplify.IsInteger := by
  obtain ⟨hbare, n, hn⟩ := h
  exact ⟨n, (denotes_iff.mpr hn).simplify_eq hbare⟩

theorem IsInteger.whole {t : Tree (Exact I)} (h : t.IsInteger) : t.Whole := by
  obtain ⟨n, rfl⟩ := h
  exact ⟨everywhere_leaf_iff.mpr fun _ => rfl, n, rfl⟩

/-! ### Rules -/

variable {R : Type _} [CommRing R] [Algebra K R] {value? : String → Option R}

theorem isZero_iff {t : Tree (Exact I)} : t.isZero ↔ t = num (.value 0) := by
  simp only [isZero, any_number?_iff, Exact.isZero_iff, exists_eq_right]

theorem isOne_iff {t : Tree (Exact I)} : t.isOne ↔ t = num (.value 1) := by
  simp only [isOne, any_number?_iff, Exact.isOne_iff, exists_eq_right]

theorem isMinusOne_iff {t : Tree (Exact I)} : t.isMinusOne ↔ t = num (.value (-1)) := by
  simp only [isMinusOne, any_number?_iff, Exact.isMinusOne_iff, exists_eq_right]

omit [Field K] in
theorem eq_of_beq_exact {s t : Tree (Exact I)} (h : (s == t) = true) : s = t :=
  eq_of_same (fun _ _ => Exact.eq_of_beq) h

namespace DenotesIn

variable {t : Tree (Exact I)} {x : R}

theorem eq_of_num {y : K} (h : (Tree.num (.value y : Exact I)).DenotesIn value? x) :
    x = algebraMap K R y := by
  obtain ⟨_, ⟨⟩, hx⟩ := h.num_eq
  exact hx

theorem eq_zero (h : t.DenotesIn value? x) (ht : t.isZero) : x = 0 := by
  obtain rfl := isZero_iff.mp ht
  rw [h.eq_of_num, map_zero]

theorem eq_one (h : t.DenotesIn value? x) (ht : t.isOne) : x = 1 := by
  obtain rfl := isOne_iff.mp ht
  rw [h.eq_of_num, map_one]

theorem eq_neg_one (h : t.DenotesIn value? x) (ht : t.isMinusOne) : x = -1 := by
  obtain rfl := isMinusOne_iff.mp ht
  rw [h.eq_of_num, map_neg, map_one]

/-- A node that folds has the value of the number it folds to. -/
theorem eq_of_folds [CharZero K] [Nontrivial R] {l : Label (Exact I)} {cs : List (Tree (Exact I))}
    {a : Exact I} (h : (Tree.node l cs).DenotesIn value? x) (hfolds : Folds l cs a) :
    ∃ y, a = .value y ∧ x = algebraMap K R y := by
  cases hfolds with
  | negation o b =>
    cases h with
    | negation _ ht =>
      obtain ⟨y, rfl, rfl⟩ := ht.num_eq
      exact ⟨-y, Exact.negated_value y, (map_neg _ y).symm⟩
  | binary hscalar hfinite =>
    obtain ⟨y, rfl⟩ := Exact.isFinite_iff.mp hfinite
    obtain ⟨b, c, rfl, rfl, hz⟩ := Exact.operate?_eq_iff.mp hscalar
    obtain ⟨b', c', hb, hc, hx⟩ := denotesIn_binary_iff.mp h
    rw [hb.eq_of_num, hc.eq_of_num] at hx
    exact ⟨y, rfl, hx.eq ((operates_iff.mpr hz).map (Algebra.ofId K R))⟩
  | call _ hfinite =>
    obtain ⟨y, hy⟩ := Exact.isFinite_iff.mp hfinite
    obtain ⟨b, rfl, hb⟩ := Exact.apply_eq_iff.mp hy
    refine ⟨y, hy, ?_⟩
    cases h with
    | call _ hu hy' =>
      rw [(algebraMap K R).injective hu.eq_of_num] at hy'
      rw [Option.some.inj (hy'.symm.trans hb)]

end DenotesIn

/-- The tree has the value `x`, and its exponents are literals of integers. -/
structure Settles (value? : String → Option R) (x : R) (s : Tree (Exact I)) : Prop where
  denotes : s.DenotesIn value? x
  exponents : s.Exponents IsInteger

namespace Settles

variable {l r : Tree (Exact I)} {x y z : R}

theorem literal (x : K) :
    Settles value? (algebraMap K R x) (num (.value x) : Tree (Exact I)) :=
  ⟨.num x [], exponents_leaf _⟩

theorem zero : Settles value? (0 : R) (0 : Tree (Exact I)) := ⟨denotesIn_zero, exponents_leaf _⟩

theorem one : Settles value? (1 : R) (1 : Tree (Exact I)) := ⟨denotesIn_one, exponents_leaf _⟩

theorem two : Settles value? (2 : R) (two : Tree (Exact I)) := ⟨denotesIn_two, exponents_leaf _⟩

theorem negation (hl : Settles value? x l) : Settles value? (-x) (negation l) :=
  ⟨.negation .sub hl.denotes, exponents_one_iff.mpr hl.exponents⟩

theorem binary {o : Operator} (ho : o ≠ .pow) (hl : Settles value? x l) (hr : Settles value? y r)
    (hz : Operates I o x y z) : Settles value? z (binary o l r) :=
  ⟨.binary hl.denotes hr.denotes hz,
    exponents_two_iff.mpr ⟨fun h => absurd h ho, hl.exponents, hr.exponents⟩⟩

theorem add (hl : Settles value? x l) (hr : Settles value? y r) : Settles value? (x + y) (l + r) :=
  hl.binary (o := .add) nofun hr (.add x y)

theorem sub (hl : Settles value? x l) (hr : Settles value? y r) : Settles value? (x - y) (l - r) :=
  hl.binary (o := .sub) nofun hr (.sub x y)

theorem mul (hl : Settles value? x l) (hr : Settles value? y r) : Settles value? (x * y) (l * r) :=
  hl.binary (o := .mul) nofun hr (.mul x y)

theorem div (hl : Settles value? x l) (hr : Settles value? y r) (hy : IsUnit y)
    (hz : z * y = x) : Settles value? z (l / r) :=
  hl.binary (o := .div) nofun hr (.div hy hz)

theorem pow {n : ℤ} (hl : Settles value? x l) (hz : IsPower x n z) :
    Settles value? z (l.pow (.num (.value n))) :=
  ⟨.binary hl.denotes (denotesIn_intCast n) (.pow hz),
    exponents_two_iff.mpr ⟨fun _ => ⟨n, rfl⟩, hl.exponents, exponents_leaf _⟩⟩

theorem negate (hl : Settles value? x l) : Settles value? (-x) (negate l) := by
  rw [Tree.negate.eq_def]
  split
  · obtain ⟨y, rfl, rfl⟩ := hl.denotes.num_eq
    rw [Exact.negated_value, ← map_neg]
    exact .literal (-y)
  · exact ⟨hl.denotes.operand, exponents_one_iff.mp hl.exponents⟩
  · exact hl.negation

section

variable [CharZero K] [Nontrivial R]

theorem reduceSum (hl : Settles value? x l) (hr : Settles value? y r) :
    Settles value? (x + y) (reduceSum l r) := by
  unfold Tree.reduceSum
  split_ifs with hzero hzero' hsame
  · rw [hr.denotes.eq_zero hzero, add_zero]
    exact hl
  · rw [hl.denotes.eq_zero hzero', zero_add]
    exact hr
  · obtain rfl := eq_of_beq_exact hsame
    rw [hr.denotes.eq hl.denotes, ← two_mul]
    exact two.mul hl
  · exact hl.add hr

theorem reduceDifference (hl : Settles value? x l) (hr : Settles value? y r) :
    Settles value? (x - y) (reduceDifference l r) := by
  unfold Tree.reduceDifference
  split_ifs with hzero hzero' hsame
  · rw [hr.denotes.eq_zero hzero, sub_zero]
    exact hl
  · rw [hl.denotes.eq_zero hzero', zero_sub]
    exact hr.negate
  · obtain rfl := eq_of_beq_exact hsame
    rw [hr.denotes.eq hl.denotes, sub_self]
    exact zero
  · exact hl.sub hr

theorem reduceProduct (hl : Settles value? x l) (hr : Settles value? y r) :
    Settles value? (x * y) (reduceProduct l r) := by
  unfold Tree.reduceProduct
  split_ifs with hzero hone hone' hminus hminus' hsame
  · obtain hzero | hzero := (Bool.or_eq_true _ _).mp hzero
    · rw [hl.denotes.eq_zero hzero, zero_mul]
      exact zero
    · rw [hr.denotes.eq_zero hzero, mul_zero]
      exact zero
  · rw [hr.denotes.eq_one hone, mul_one]
    exact hl
  · rw [hl.denotes.eq_one hone', one_mul]
    exact hr
  · rw [hr.denotes.eq_neg_one hminus, mul_neg_one]
    exact hl.negate
  · rw [hl.denotes.eq_neg_one hminus', neg_one_mul]
    exact hr.negate
  · obtain rfl := eq_of_beq_exact hsame
    rw [hr.denotes.eq hl.denotes, Tree.two, Exact.two_eq, ← Int.cast_ofNat]
    exact hl.pow (isPower_two_iff.mpr (sq x).symm)
  · exact hl.mul hr

theorem reduceQuotient (hl : Settles value? x l) (hr : Settles value? y r) (hy : IsUnit y)
    (hz : z * y = x) : Settles value? z (reduceQuotient l r) := by
  unfold Tree.reduceQuotient
  split_ifs with hone hminus hsame
  · rw [hr.denotes.eq_one hone, mul_one] at hz
    rw [hz]
    exact hl
  · rw [hr.denotes.eq_neg_one hminus, mul_neg_one] at hz
    rw [← neg_neg z, hz]
    exact hl.negate
  · obtain rfl := eq_of_beq_exact hsame
    rw [hl.denotes.eq hr.denotes] at hz
    rw [hy.mul_eq_right.mp hz]
    exact one
  · exact hl.div hr hy hz

theorem reducePower {n : ℤ} {s : Tree (Exact I)} (hl : Settles value? x l) (hz : IsPower x n z)
    (hs : reducePower (fun t => some t.simplify) l (.num (.value n)) = some s) :
    Settles value? z s := by
  unfold Tree.reducePower at hs
  split_ifs at hs with hzero hbase hbase' hone hminus
  · obtain rfl := Option.some.inj hs
    have hn : (n : K) = 0 := by simpa [num] using isZero_iff.mp hzero
    rw [Int.cast_eq_zero.mp hn] at hz
    rw [isPower_zero_iff.mp hz]
    exact one
  · obtain rfl := Option.some.inj hs
    have hn : n ≠ 0 := by
      rintro rfl
      exact hzero (isZero_iff.mpr (by rw [Int.cast_zero]))
    rw [hl.denotes.eq_zero hbase] at hz
    rw [hz.zero_base hn]
    exact zero
  · obtain rfl := Option.some.inj hs
    rw [hl.denotes.eq_one hbase'] at hz
    rw [hz.one_base]
    exact one
  · obtain rfl := Option.some.inj hs
    have hn : (n : K) = 1 := by simpa [num] using isOne_iff.mp hone
    rw [Int.cast_eq_one.mp hn] at hz
    rw [isPower_one_iff.mp hz]
    exact hl
  · obtain rfl := Option.some.inj hs
    have hn : (n : K) = (-1 : ℤ) := by simpa [num] using isMinusOne_iff.mp hminus
    obtain rfl := Int.cast_injective hn
    obtain ⟨hx, hinverse⟩ := hz.neg_one
    exact one.div hl hx hinverse
  · split at hs
    · next a e _ _ =>
      -- A power of a power: the exponents are literals, so their product folds.
      obtain ⟨hinteger, ha, -⟩ := exponents_two_iff.mp hl.exponents
      obtain ⟨m, rfl⟩ := hinteger rfl
      obtain ⟨w, k, hw, hk, hx⟩ := denotesIn_binary_iff.mp hl.denotes
      rw [hk.eq_of_num, map_intCast, operates_pow_iff] at hx
      have hproduct : (num (.value m) * num (.value n) : Tree (Exact I)).simplify =
          num (.value (m * n : ℤ)) := by
        refine simplify_eq_of_folds ?_
        rw [List.map_cons, List.map_singleton, simplify_num, simplify_num, Int.cast_mul]
        exact .binary rfl rfl
      rw [Option.map_some, hproduct] at hs
      obtain rfl := Option.some.inj hs
      exact Settles.pow ⟨hw, ha⟩ (hx.mul hz)
    · obtain rfl := Option.some.inj hs
      exact hl.pow hz

/-- A node over children that settle. -/
theorem reduce {l : Label (Exact I)} {cs : List (Tree (Exact I))} {x : R} {s : Tree (Exact I)}
    (hdenotes : (Tree.node l cs).DenotesIn value? x)
    (hexponents : (Tree.node l cs).Exponents IsInteger)
    (hs : reduce (fun t => some t.simplify) l cs = some s) : Settles value? x s := by
  unfold Tree.reduce at hs
  split at hs
  · next a hfold =>
    obtain rfl := Option.some.inj hs
    obtain ⟨y, rfl, rfl⟩ := hdenotes.eq_of_folds (folds_of_fold? hfold)
    exact .literal y
  · cases hdenotes with
    | num x cs =>
      obtain rfl := Option.some.inj hs
      exact ⟨.num x cs, hexponents⟩
    | var cs hname =>
      obtain rfl := Option.some.inj hs
      exact ⟨.var cs hname, hexponents⟩
    | negation o ht =>
      obtain rfl := Option.some.inj hs
      exact Settles.negate ⟨ht, exponents_one_iff.mp hexponents⟩
    | @binary o l r x y z hl hr hz =>
      obtain ⟨hinteger, hlexponents, hrexponents⟩ := exponents_two_iff.mp hexponents
      have hl : Settles value? x l := ⟨hl, hlexponents⟩
      have hr : Settles value? y r := ⟨hr, hrexponents⟩
      cases o with
      | add =>
        obtain rfl := operates_add_iff.mp hz
        obtain rfl := Option.some.inj hs
        exact hl.reduceSum hr
      | sub =>
        obtain rfl := operates_sub_iff.mp hz
        obtain rfl := Option.some.inj hs
        exact hl.reduceDifference hr
      | mul =>
        obtain rfl := operates_mul_iff.mp hz
        obtain rfl := Option.some.inj hs
        exact hl.reduceProduct hr
      | div =>
        obtain ⟨hy, hz⟩ := operates_div_iff.mp hz
        obtain rfl := Option.some.inj hs
        exact hl.reduceQuotient hr hy hz
      | pow =>
        obtain ⟨n, rfl⟩ := hinteger rfl
        rw [hr.denotes.eq_of_num, map_intCast, operates_pow_iff] at hz
        exact hl.reducePower hz hs
      | unknown => cases hz
    | call hf hu hy =>
      obtain rfl := Option.some.inj hs
      exact ⟨.call hf hu hy, hexponents⟩

end

end Settles

/-! ### A pass -/

/-- A pass keeps the value, and makes the exponents literals. -/
theorem DenotesIn.simplify [CharZero K] [Nontrivial R] {t : Tree (Exact I)} {x : R}
    (h : t.DenotesIn value? x) (hbare : t.Bare) (hexponents : t.Exponents Whole) :
    Settles value? x t.simplify := by
  induction h with
  | num x cs =>
    obtain rfl := (everywhere_iff.mp hbare).1 (.inl ⟨_, rfl⟩)
    exact .reduce (.num x []) (exponents_leaf _) (simplify_node _ [])
  | var cs hname =>
    obtain rfl := (everywhere_iff.mp hbare).1 (.inr ⟨_, rfl⟩)
    exact .reduce (.var [] hname) (exponents_leaf _) (simplify_node _ [])
  | negation o _ ih =>
    have ht := ih (everywhere_one_iff.mp hbare).2 (exponents_one_iff.mp hexponents)
    exact .reduce (.negation o ht.denotes) (exponents_one_iff.mpr ht.exponents)
      (simplify_node _ [_])
  | @binary o l r x y z _ _ hz ihl ihr =>
    obtain ⟨-, hlbare, hrbare⟩ := everywhere_two_iff.mp hbare
    obtain ⟨hwhole, hlexponents, hrexponents⟩ := exponents_two_iff.mp hexponents
    have hl := ihl hlbare hlexponents
    have hr := ihr hrbare hrexponents
    refine .reduce (.binary hl.denotes hr.denotes hz) (exponents_two_iff.mpr ⟨fun ho => ?_,
      hl.exponents, hr.exponents⟩) (simplify_node _ [_, _])
    exact (hwhole ho).simplify_eq
  | call hf _ hy ih =>
    have hu := ih (everywhere_one_iff.mp hbare).2 (exponents_one_iff.mp hexponents)
    exact .reduce (.call hf hu.denotes hy) (exponents_one_iff.mpr hu.exponents)
      (simplify_node _ [_])

end FractalFormula.Tree
