import FractalFormula.Proofs.Decimal.Arithmetic
import FractalFormula.Proofs.Scalar.Finite

/-!
# Singular scalars

Numbers that are not finite go through sums, differences and products. The identities of
simplification that drop no operand respect this when they are read on values: where the value that
an identity writes is finite, so is the one that it replaces.

Complex numbers satisfy this, and real numbers do as far as their powers to small exponents are
finite where they should be (`Binary64.TamePowers`).
-/

namespace FractalFormula

section

variable {α : Type _} [Scalar α]

/-- The identities that drop no operand, read on values: a value, and the one that is written for
it. Equal operands need not be equal where they are not finite. -/
inductive Scalar.Keeps : α → α → Prop where
  | add_zero {x y : α} : isZero y → Keeps (x + y) x
  | zero_add {x y : α} : isZero x → Keeps (x + y) y
  | add_self {x y : α} : (isFinite x → x == y) → Keeps (x + y) (two * x)
  | sub_zero {x y : α} : isZero y → Keeps (x - y) x
  | zero_sub {x y : α} : isZero x → Keeps (x - y) (negated y)
  | mul_one {x y : α} : isOne y → Keeps (x * y) x
  | one_mul {x y : α} : isOne x → Keeps (x * y) y
  | mul_minusOne {x y : α} : isMinusOne y → Keeps (x * y) (negated x)
  | minusOne_mul {x y : α} : isMinusOne x → Keeps (x * y) (negated y)
  | mul_self {x y : α} : (isFinite x → x == y) → Keeps (x * y) (pow x two)
  | div_one {x y : α} : isOne y → Keeps (x / y) x
  | div_minusOne {x y : α} : isMinusOne y → Keeps (x / y) (negated x)
  | pow_zero {x y : α} : isZero y → Keeps (pow x y) 1
  | pow_one {x y : α} : isOne y → Keeps (pow x y) x
  | pow_minusOne {x y : α} : isMinusOne y → Keeps (pow x y) (1 / x)

/-- Scalars with numbers that are not finite, which go through arithmetic and through the identities
that drop no operand. -/
class SingularScalar (α : Type _) [Scalar α] : Prop extends FiniteScalar α where
  isFinite_of_add {x y : α} : Scalar.isFinite (x + y) → Scalar.isFinite x ∧ Scalar.isFinite y
  isFinite_of_sub {x y : α} : Scalar.isFinite (x - y) → Scalar.isFinite x ∧ Scalar.isFinite y
  isFinite_of_mul {x y : α} : Scalar.isFinite (x * y) → Scalar.isFinite x ∧ Scalar.isFinite y
  isFinite_of_keeps {w z : α} : Scalar.Keeps w z → Scalar.isFinite z → Scalar.isFinite w

end

/-! ### Complex numbers -/

namespace ComplexFloat

open Binary64 (Alike)

variable {z z' w w' : ComplexFloat}

/-- The parts are the same, but for the signs of zeros. -/
def PartsAlike (z w : ComplexFloat) : Prop := Alike z.re w.re ∧ Alike z.im w.im

theorem isFinite_iff : z.isFinite ↔ z.re.isFinite ∧ z.im.isFinite := Bool.and_eq_true_iff

theorem partsAlike_of_beq (h : (z == w) = true) : PartsAlike z w :=
  (Bool.and_eq_true_iff.mp h).imp Alike.of_beq Alike.of_beq

namespace PartsAlike

theorem isFinite (h : PartsAlike z w) (hw : w.isFinite) : z.isFinite :=
  isFinite_iff.mpr ((isFinite_iff.mp hw).imp h.1.isFinite h.2.isFinite)

protected theorem refl (z : ComplexFloat) : PartsAlike z z := ⟨.refl z.re, .refl z.im⟩

protected theorem symm (h : PartsAlike z w) : PartsAlike w z := ⟨h.1.symm, h.2.symm⟩

protected theorem trans (h : PartsAlike z w) (h' : PartsAlike w w') : PartsAlike z w' :=
  ⟨h.1.trans h'.1, h.2.trans h'.2⟩

protected theorem add (h : PartsAlike z z') (h' : PartsAlike w w') :
    PartsAlike (z + w) (z' + w') :=
  ⟨h.1.add h'.1, h.2.add h'.2⟩

protected theorem sub (h : PartsAlike z z') (h' : PartsAlike w w') :
    PartsAlike (z - w) (z' - w') :=
  ⟨h.1.sub h'.1, h.2.sub h'.2⟩

protected theorem mul (h : PartsAlike z z') (h' : PartsAlike w w') :
    PartsAlike (z * w) (z' * w') :=
  ⟨(h.1.mul h'.1).sub (h.2.mul h'.2), (h.1.mul h'.2).add (h.2.mul h'.1)⟩

end PartsAlike

theorem isFinite_of_add (h : (z + w).isFinite) : z.isFinite ∧ w.isFinite := by
  obtain ⟨hre, him⟩ := isFinite_iff.mp h
  have hre := Binary64.isFinite_of_add hre
  have him := Binary64.isFinite_of_add him
  exact ⟨isFinite_iff.mpr ⟨hre.1, him.1⟩, isFinite_iff.mpr ⟨hre.2, him.2⟩⟩

theorem isFinite_of_sub (h : (z - w).isFinite) : z.isFinite ∧ w.isFinite := by
  obtain ⟨hre, him⟩ := isFinite_iff.mp h
  have hre := Binary64.isFinite_of_sub hre
  have him := Binary64.isFinite_of_sub him
  exact ⟨isFinite_iff.mpr ⟨hre.1, him.1⟩, isFinite_iff.mpr ⟨hre.2, him.2⟩⟩

theorem isFinite_of_mul (h : (z * w).isFinite) : z.isFinite ∧ w.isFinite := by
  obtain ⟨hre, -⟩ := isFinite_iff.mp h
  obtain ⟨hreal, himaginary⟩ := Binary64.isFinite_of_sub hre
  have hre := Binary64.isFinite_of_mul hreal
  have him := Binary64.isFinite_of_mul himaginary
  exact ⟨isFinite_iff.mpr ⟨hre.1, him.1⟩, isFinite_iff.mpr ⟨hre.2, him.2⟩⟩

/-- Unlike a real one, a complex quotient is finite only if the divisor is, too. -/
theorem isFinite_of_div (h : (z / w).isFinite) : z.isFinite ∧ w.isFinite := by
  obtain ⟨hre, -⟩ := isFinite_iff.mp h
  obtain ⟨hreal, himaginary⟩ := Binary64.isFinite_of_add (Binary64.isFinite_of_div hre)
  have hre := Binary64.isFinite_of_mul hreal
  have him := Binary64.isFinite_of_mul himaginary
  exact ⟨isFinite_iff.mpr ⟨hre.1, him.1⟩, isFinite_iff.mpr ⟨hre.2, him.2⟩⟩

/-! #### Factors and divisors -/

theorem partsAlike_add_zero (z : ComplexFloat) : PartsAlike (z + 0) z :=
  ⟨Binary64.alike_add_zero z.re, Binary64.alike_add_zero z.im⟩

theorem partsAlike_zero_add (z : ComplexFloat) : PartsAlike (0 + z) z :=
  ⟨Binary64.alike_zero_add z.re, Binary64.alike_zero_add z.im⟩

theorem partsAlike_sub_zero (z : ComplexFloat) : PartsAlike (z - 0) z :=
  ⟨Binary64.alike_sub_zero z.re, Binary64.alike_sub_zero z.im⟩

theorem partsAlike_negated (z : ComplexFloat) : PartsAlike (Scalar.negated z) (-z) :=
  ⟨Binary64.alike_zero_sub z.re, Binary64.alike_zero_sub z.im⟩

/-- Multiplication by a real number. -/
theorem partsAlike_mul_real (hz : z.isFinite) (x : Float) :
    PartsAlike (z * ⟨x, 0.0⟩) ⟨z.re * x, z.im * x⟩ := by
  obtain ⟨hre, him⟩ := isFinite_iff.mp hz
  refine ⟨?_, ?_⟩
  · exact ((Alike.refl _).sub (Binary64.alike_mul_zero him)).trans (Binary64.alike_sub_zero _)
  · exact ((Binary64.alike_mul_zero hre).add (Alike.refl _)).trans (Binary64.alike_zero_add _)

theorem partsAlike_real_mul (hz : z.isFinite) (x : Float) :
    PartsAlike (⟨x, 0.0⟩ * z) ⟨z.re * x, z.im * x⟩ := by
  obtain ⟨hre, him⟩ := isFinite_iff.mp hz
  refine ⟨?_, ?_⟩
  · exact ((Alike.of_eq (Binary64.mul_comm x z.re)).sub (Binary64.alike_zero_mul him)).trans
      (Binary64.alike_sub_zero _)
  · exact ((Alike.of_eq (Binary64.mul_comm x z.im)).add (Binary64.alike_zero_mul hre)).trans
      (Binary64.alike_add_zero _)

theorem mul_one_parts (z : ComplexFloat) : (⟨z.re * 1.0, z.im * 1.0⟩ : ComplexFloat) = z := by
  rw [Binary64.mul_one, Binary64.mul_one]

theorem mul_neg_one_parts (z : ComplexFloat) :
    (⟨z.re * -1.0, z.im * -1.0⟩ : ComplexFloat) = -z := by
  rw [Binary64.mul_neg_one, Binary64.mul_neg_one]
  rfl

theorem partsAlike_two_mul (hz : z.isFinite) : PartsAlike (Scalar.two * z) (z + z) := by
  have h := partsAlike_real_mul hz 2.0
  rw [Binary64.mul_comm z.re, Binary64.mul_comm z.im, Binary64.two_mul, Binary64.two_mul] at h
  exact h

/-- Division by a real number of absolute value one, which is multiplication by it. -/
theorem partsAlike_div {u : Float} (hz : z.isFinite) (hre : w.re = u) (him : (w.im == 0.0) = true)
    (hu : u = 1.0 ∨ u = -1.0) : PartsAlike (z / w) ⟨z.re * u, z.im * u⟩ := by
  obtain ⟨hzre, hzim⟩ := isFinite_iff.mp hz
  have hnorm : w.re * w.re + w.im * w.im = 1.0 := by
    rw [hre]
    rcases Binary64.eq_zero_or_of_beq him with him | him <;> rcases hu with rfl | rfl <;>
      rw [him] <;> decide
  have hzero {y : Float} (hy : y.isFinite) : Alike (y * w.im) 0.0 :=
    ((Alike.refl y).mul (Alike.of_beq him)).trans (Binary64.alike_mul_zero hy)
  have hdiv : z / w = ⟨z.re * u + z.im * w.im, z.im * u - z.re * w.im⟩ := by
    show (⟨_ / (w.re * w.re + w.im * w.im), _ / (w.re * w.re + w.im * w.im)⟩ : ComplexFloat) = _
    rw [hnorm, Binary64.div_one, Binary64.div_one, hre]
  rw [hdiv]
  exact ⟨((Alike.refl _).add (hzero hzim)).trans (Binary64.alike_add_zero _),
    ((Alike.refl _).sub (hzero hzre)).trans (Binary64.alike_sub_zero _)⟩

theorem re_im_of_isMinusOne (hw : Scalar.isMinusOne w) :
    w.re = -1.0 ∧ (w.im == 0.0) = true := by
  obtain ⟨hre, him⟩ := Bool.and_eq_true_iff.mp hw
  have hminus : (0.0 : Float) - 1.0 = -1.0 := by decide
  have hzero : (0.0 : Float) - 0.0 = 0.0 := by decide
  change (w.re == 0.0 - 1.0) = true at hre
  change (w.im == 0.0 - 0.0) = true at him
  rw [hminus] at hre
  rw [hzero] at him
  exact ⟨(Alike.of_beq hre).resolve_right fun h => absurd h.2 (by decide), him⟩

theorem partsAlike_of_isMinusOne (hw : Scalar.isMinusOne w) : PartsAlike w ⟨-1.0, 0.0⟩ := by
  obtain ⟨hre, him⟩ := re_im_of_isMinusOne hw
  exact ⟨.of_eq hre, .of_beq him⟩

/-! #### Small integral powers -/

theorem pow_eq_powInt {n : Int} (him : (w.im == 0.0) = true)
    (hre : Elementary.smallInteger? w.re = some n) : pow z w = powInt z n := by
  rw [pow, if_pos him, hre]

theorem pow_isZero (hw : Scalar.isZero w) : pow z w = 1 := by
  obtain ⟨hre, him⟩ := Bool.and_eq_true_iff.mp hw
  refine pow_eq_powInt (n := 0) him ?_
  rcases Binary64.eq_zero_or_of_beq hre with hre | hre
  · rw [hre]
    decide
  · rw [hre]
    decide

theorem pow_isOne (hw : Scalar.isOne w) : pow z w = z := by
  obtain ⟨hre, him⟩ := Bool.and_eq_true_iff.mp hw
  refine pow_eq_powInt (n := 1) him ?_
  rw [Alike.eq_one_of_beq hre]
  decide

theorem pow_isMinusOne (hw : Scalar.isMinusOne w) : pow z w = z.inv := by
  obtain ⟨hre, him⟩ := re_im_of_isMinusOne hw
  refine pow_eq_powInt (n := -1) him ?_
  rw [hre]
  decide

theorem pow_two (z : ComplexFloat) : pow z Scalar.two = z * z :=
  pow_eq_powInt (n := 2) (by decide) (by decide)

/-- The reciprocal is the quotient of one, computed in fewer steps. -/
theorem partsAlike_inv (hz : z.isFinite) : PartsAlike z.inv (1 / z) := by
  obtain ⟨hre, him⟩ := isFinite_iff.mp hz
  have hone (x : Float) : Alike (1.0 * x) x :=
    .of_eq ((Binary64.mul_comm 1.0 x).trans (Binary64.mul_one x))
  refine ⟨Alike.div ?_ _, Alike.div ?_ _⟩
  · exact (((hone z.re).add (Binary64.alike_zero_mul him)).trans
      (Binary64.alike_add_zero z.re)).symm
  · exact (((Binary64.alike_zero_mul hre).sub (hone z.im)).trans
      (Binary64.alike_zero_sub z.im)).symm

theorem isFinite_of_negated (hz : (Scalar.negated z).isFinite) : z.isFinite :=
  (isFinite_of_sub hz).2

/-- Operands that are equal where they are finite, one of which is. -/
theorem partsAlike_of_same (hz : z.isFinite) (hsame : z.isFinite → (z == w) = true) :
    PartsAlike w z :=
  (partsAlike_of_beq (hsame hz)).symm

theorem isFinite_of_keeps (h : Scalar.Keeps w z) (hz : z.isFinite) : w.isFinite := by
  cases h with
  | add_zero hy =>
    exact (((PartsAlike.refl z).add (partsAlike_of_beq hy)).trans
      (partsAlike_add_zero z)).isFinite hz
  | zero_add hx =>
    exact (((partsAlike_of_beq hx).add (.refl z)).trans (partsAlike_zero_add z)).isFinite hz
  | @add_self x _ hsame =>
    have hx := (isFinite_of_mul hz).2
    exact (((PartsAlike.refl x).add (partsAlike_of_same hx hsame)).trans
      (partsAlike_two_mul hx).symm).isFinite hz
  | sub_zero hy =>
    exact (((PartsAlike.refl z).sub (partsAlike_of_beq hy)).trans
      (partsAlike_sub_zero z)).isFinite hz
  | @zero_sub _ y hx => exact ((partsAlike_of_beq hx).sub (.refl y)).isFinite hz
  | mul_one hy =>
    have hone := partsAlike_mul_real hz 1.0
    rw [mul_one_parts] at hone
    exact (((PartsAlike.refl z).mul (partsAlike_of_beq hy)).trans hone).isFinite hz
  | one_mul hx =>
    have hone := partsAlike_real_mul hz 1.0
    rw [mul_one_parts] at hone
    exact (((partsAlike_of_beq hx).mul (.refl z)).trans hone).isFinite hz
  | @mul_minusOne x _ hy =>
    have hx := isFinite_of_negated hz
    have hminus := partsAlike_mul_real hx (-1.0)
    rw [mul_neg_one_parts] at hminus
    exact (((PartsAlike.refl x).mul (partsAlike_of_isMinusOne hy)).trans hminus).trans
      (partsAlike_negated x).symm |>.isFinite hz
  | @minusOne_mul _ y hx =>
    have hy := isFinite_of_negated hz
    have hminus := partsAlike_real_mul hy (-1.0)
    rw [mul_neg_one_parts] at hminus
    exact (((partsAlike_of_isMinusOne hx).mul (.refl y)).trans hminus).trans
      (partsAlike_negated y).symm |>.isFinite hz
  | @mul_self x _ hsame =>
    have hsquare : (x * x).isFinite := pow_two x ▸ hz
    have hx := (isFinite_of_mul hsquare).1
    exact ((PartsAlike.refl x).mul (partsAlike_of_same hx hsame)).isFinite hsquare
  | div_one hy =>
    obtain ⟨hre, him⟩ := Bool.and_eq_true_iff.mp hy
    have hone := partsAlike_div hz (Alike.eq_one_of_beq hre) him (.inl rfl)
    rw [mul_one_parts] at hone
    exact hone.isFinite hz
  | @div_minusOne x _ hy =>
    obtain ⟨hre, him⟩ := re_im_of_isMinusOne hy
    have hx := isFinite_of_negated hz
    have hminus := partsAlike_div hx hre him (.inr rfl)
    rw [mul_neg_one_parts] at hminus
    exact (hminus.trans (partsAlike_negated x).symm).isFinite hz
  | @pow_zero x y hy =>
    show (pow x y).isFinite
    rw [pow_isZero hy]
    decide
  | @pow_one _ y hy =>
    show (pow z y).isFinite
    rwa [pow_isOne hy]
  | @pow_minusOne x y hy =>
    show (pow x y).isFinite
    rw [pow_isMinusOne hy]
    exact (partsAlike_inv (isFinite_of_div hz).2).isFinite hz

end ComplexFloat

instance : SingularScalar ComplexFloat where
  isFinite_of_add := ComplexFloat.isFinite_of_add
  isFinite_of_sub := ComplexFloat.isFinite_of_sub
  isFinite_of_mul := ComplexFloat.isFinite_of_mul
  isFinite_of_keeps := ComplexFloat.isFinite_of_keeps

/-! ### Real numbers -/

namespace Binary64

theorem eq_neg_one_of_isMinusOne {x : Float} (hx : Scalar.isMinusOne x) : x = -1.0 := by
  have hminus : (0.0 : Float) - 1.0 = -1.0 := by decide
  change (x == 0.0 - 1.0) = true at hx
  rw [hminus] at hx
  exact (Alike.of_beq hx).resolve_right fun h => absurd h.2 (by decide)

theorem isFinite_of_zero_sub {x : Float} (hx : (0.0 - x : Float).isFinite) : x.isFinite :=
  (isFinite_of_sub hx).2

/-- What is asked of powers: that those to the exponents zero, one and minus one are finite where
one, the base and its reciprocal are, and those to the exponent two only where the square is. -/
structure TamePowers : Prop where
  zero (x y : Float) : (y == 0.0) = true → (x.pow y).isFinite
  one (x : Float) : x.isFinite → (x.pow 1.0).isFinite
  minusOne (x : Float) : (1.0 / x).isFinite → (x.pow (-1.0)).isFinite
  two (x : Float) : (x.pow 2.0).isFinite → (x * x).isFinite

theorem isFinite_of_keeps (hpow : TamePowers) {w z : Float} (h : Scalar.Keeps w z)
    (hz : z.isFinite) : w.isFinite := by
  cases h with
  | add_zero hy =>
    exact (((Alike.refl z).add (.of_beq hy)).trans (alike_add_zero z)).isFinite hz
  | zero_add hx =>
    exact (((Alike.of_beq hx).add (.refl z)).trans (alike_zero_add z)).isFinite hz
  | @add_self x _ hsame =>
    have hdouble : (Scalar.two : Float) * x = x + x := Binary64.two_mul x
    have hz : (x + x : Float).isFinite := hdouble ▸ hz
    have hx := (isFinite_of_add hz).1
    exact ((Alike.refl x).add (Alike.of_beq (hsame hx)).symm).isFinite hz
  | sub_zero hy =>
    exact (((Alike.refl z).sub (.of_beq hy)).trans (alike_sub_zero z)).isFinite hz
  | @zero_sub _ y hx => exact ((Alike.of_beq hx).sub (.refl y)).isFinite hz
  | mul_one hy =>
    rw [Alike.eq_one_of_beq hy]
    exact (Binary64.mul_one z).symm ▸ hz
  | one_mul hx =>
    rw [Alike.eq_one_of_beq hx, Binary64.mul_comm]
    exact (Binary64.mul_one z).symm ▸ hz
  | mul_minusOne hy =>
    rw [eq_neg_one_of_isMinusOne hy, Binary64.mul_neg_one]
    exact isFinite_neg (isFinite_of_zero_sub hz)
  | minusOne_mul hx =>
    rw [eq_neg_one_of_isMinusOne hx, Binary64.mul_comm, Binary64.mul_neg_one]
    exact isFinite_neg (isFinite_of_zero_sub hz)
  | @mul_self x _ hsame =>
    have hsquare : (x * x).isFinite := hpow.two x hz
    have hx := (isFinite_of_mul hsquare).1
    exact ((Alike.refl x).mul (Alike.of_beq (hsame hx)).symm).isFinite hsquare
  | div_one hy =>
    rw [Alike.eq_one_of_beq hy]
    exact (Binary64.div_one z).symm ▸ hz
  | div_minusOne hy =>
    rw [eq_neg_one_of_isMinusOne hy, Binary64.div_neg_one]
    exact isFinite_neg (isFinite_of_zero_sub hz)
  | pow_zero hy => exact hpow.zero _ _ hy
  | @pow_one _ y hy =>
    show (z.pow y).isFinite
    rw [Alike.eq_one_of_beq hy]
    exact hpow.one z hz
  | @pow_minusOne x y hy =>
    show (x.pow y).isFinite
    rw [eq_neg_one_of_isMinusOne hy]
    exact hpow.minusOne x hz

end Binary64

/-- Real numbers, as far as their powers are tame. -/
theorem singularScalar_float (hpow : Binary64.TamePowers) : SingularScalar Float where
  isFinite_of_add := Binary64.isFinite_of_add
  isFinite_of_sub := Binary64.isFinite_of_sub
  isFinite_of_mul := Binary64.isFinite_of_mul
  isFinite_of_keeps := Binary64.isFinite_of_keeps hpow

end FractalFormula
