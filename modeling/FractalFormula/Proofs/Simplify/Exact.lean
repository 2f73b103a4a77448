import Mathlib
import FractalFormula.Proofs.Evaluation.Environment
import FractalFormula.Proofs.Simplify.Value

/-!
# Simplification in exact arithmetic

Simplification keeps the value of a tree over a field of characteristic zero. Numbers and variables
have no children, and exponents are integers that are written with literals, sums, differences,
products and minus signs; the exponents of the result are again of that form.
-/

namespace FractalFormula.Tree

/-- Literals under sums, differences, products and minus signs. -/
inductive Arithmetic {α : Type _} : Tree α → Prop where
  | num (x : α) : Arithmetic (num x)
  | negation {t : Tree α} (o : Operator) : Arithmetic t → Arithmetic (.node (.operator o) [t])
  | binary {o : Operator} {l r : Tree α} : o ∈ [Operator.add, .sub, .mul] → Arithmetic l →
    Arithmetic r → Arithmetic (.node (.operator o) [l, r])

theorem Arithmetic.bare {α : Type _} {t : Tree α} (h : t.Arithmetic) : t.Bare := by
  induction h with
  | num x => exact everywhere_leaf_iff.mpr fun _ => rfl
  | negation o _ ih => exact everywhere_one_iff.mpr ⟨by simp, ih⟩
  | binary _ _ _ ihl ihr => exact everywhere_two_iff.mpr ⟨by simp, ihl, ihr⟩

variable {K : Type _} [Field K] {I : Interpretation K}

/-- An integer, written with literals, sums, differences, products and minus signs. -/
structure Integral (t : Tree (Exact I)) : Prop where
  arithmetic : t.Arithmetic
  value : ∃ n : ℤ, t.evaluate .empty = .ok (.value n)

theorem Integral.whole {t : Tree (Exact I)} (h : t.Integral) : t.Whole :=
  ⟨h.arithmetic.bare, h.value⟩

theorem IsInteger.integral {t : Tree (Exact I)} (h : t.IsInteger) : t.Integral := by
  obtain ⟨n, rfl⟩ := h
  exact ⟨.num _, n, rfl⟩

/-- In the environment the tree has the value `x`, and its exponents are integers, written with
literals, sums, differences, products and minus signs. -/
structure Exactly (e : Environment (Exact I)) (x : K) (t : Tree (Exact I)) : Prop where
  value : t.evaluateUnder e = .ok (.value x)
  exponents : t.Exponents Integral

variable [CharZero K]

theorem evaluateUnder_eq_ok_iff {e : Environment (Exact I)} {t : Tree (Exact I)} {x : K} :
    t.evaluateUnder e = .ok (.value x) ↔ t.DenotesIn (Exact.elements e.value?) x := by
  rw [evaluateUnder_eq, ← denotes_iff, denotes_iff_denotesIn]

theorem Exactly.simplify {e : Environment (Exact I)} {x : K} {t : Tree (Exact I)}
    (h : t.Exactly e x) (hbare : t.Bare) : t.simplify.Exactly e x := by
  have hdenotes := evaluateUnder_eq_ok_iff.mp h.value
  obtain ⟨hvalue, hexponents⟩ := hdenotes.simplify hbare (h.exponents.mono fun _ => Integral.whole)
  exact ⟨evaluateUnder_eq_ok_iff.mpr hvalue, hexponents.mono fun _ => IsInteger.integral⟩

/-- Simplification keeps the value of a tree in exact arithmetic, and the form of its exponents,
in one pass and in any number of passes. -/
theorem simplify_exact (e : Environment (Exact I)) (t : Tree (Exact I)) (x : K) (hbare : t.Bare)
    (h : t.Exactly e x) :
    t.simplify.Exactly e x ∧ ∀ passes, (t.simplifyTimes passes).1.Exactly e x := by
  refine ⟨h.simplify hbare, fun passes => ?_⟩
  induction passes generalizing t with
  | zero => exact h
  | succ passes ih =>
    rw [simplifyTimes]
    split_ifs
    · exact h.simplify hbare
    · exact ih t.simplify (closed_bare.simplify hbare) (h.simplify hbare)

/-! ### An example -/

/-- No functions, and no powers but to integers. -/
def rationals : Interpretation ℚ := ⟨fun _ _ => none, fun _ _ => none⟩

/-- The product `z * z`, raised to `1 + 1` and divided by `z`. -/
noncomputable def squares : Tree (Exact rationals) :=
  (var "z" * var "z").pow (1 + 1) / var "z"

/-- The environment in which `z` is three. -/
def atThree : Environment (Exact rationals) := ⟨Bindings.empty.bind "z" (.value 3), none⟩

theorem bare_squares : squares.Bare := by
  have hz : (var "z" : Tree (Exact rationals)).Bare := everywhere_leaf_iff.mpr fun _ => rfl
  have htwo : (1 + 1 : Tree (Exact rationals)).Bare := closed_bare.add closed_bare.one closed_bare.one
  exact closed_bare.div (closed_bare.pow (closed_bare.mul hz hz) htwo) hz

theorem exactly_squares : squares.Exactly atThree 27 := by
  have htwo (value? : String → Option (Exact rationals)) :
      (1 + 1 : Tree (Exact rationals)).Denotes value? (2 : ℤ) :=
    .binary (.num 1 []) (.num 1 []) (congrArg some (by norm_num))
  have hintegral : (1 + 1 : Tree (Exact rationals)).Integral :=
    ⟨.binary (by decide) (.num _) (.num _), 2, (htwo _).evaluateWith⟩
  have hz : (var "z" : Tree (Exact rationals)).Denotes atThree.value? 3 := .var [] rfl
  have hpower : ((var "z" * var "z").pow (1 + 1) : Tree (Exact rationals)).Denotes
      atThree.value? ((3 * 3) ^ (2 : ℤ)) :=
    .binary (.binary hz hz rfl) (htwo _) (Interpretation.pow_intCast_iff.mpr ⟨by norm_num, rfl⟩)
  have hvalue : squares.Denotes atThree.value? 27 :=
    .binary hpower hz (Interpretation.operate?_div_iff.mpr ⟨by norm_num, by norm_num⟩)
  refine ⟨(evaluateUnder_eq _ _).trans hvalue.evaluateWith, ?_⟩
  refine exponents_two_iff.mpr ⟨nofun, exponents_two_iff.mpr ⟨fun _ => hintegral, ?_, ?_⟩,
    exponents_leaf _⟩
  · exact exponents_two_iff.mpr ⟨nofun, exponents_leaf _, exponents_leaf _⟩
  · exact exponents_two_iff.mpr ⟨nofun, exponents_leaf _, exponents_leaf _⟩

/-- The product becomes a power, which the power around it absorbs. -/
theorem simplify_exact_squares :
    squares.Bare ∧ squares.Exactly atThree 27 ∧ squares.simplify.Exactly atThree 27 :=
  ⟨bare_squares, exactly_squares, (simplify_exact atThree squares 27 bare_squares
    exactly_squares).1⟩

end FractalFormula.Tree
