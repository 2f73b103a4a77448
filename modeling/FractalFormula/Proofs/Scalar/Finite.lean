import FractalFormula.Proofs.Decimal.Sign
import FractalFormula.Scalar.ComplexFloat
import FractalFormula.Scalar.Real

/-!
# Finite scalars

The numbers that the passes over trees make up without asking whether they are finite: zero, one,
two, and the negation of a finite number. Both kinds of scalars have them finite.
-/

namespace FractalFormula

/-- Scalars whose constants and negations are finite. -/
class FiniteScalar (α : Type _) [Scalar α] : Prop where
  isFinite_zero : Scalar.isFinite (0 : α)
  isFinite_one : Scalar.isFinite (1 : α)
  isFinite_two : Scalar.isFinite (Scalar.two : α)
  isFinite_negated {x : α} : Scalar.isFinite x → Scalar.isFinite (Scalar.negated x)

namespace Binary64

theorem isFinite_zero_sub {x : Float} (hx : x.isFinite) : (0.0 - x : Float).isFinite := by
  by_cases hzero : (x == 0.0) = true
  · rcases eq_zero_or_of_beq hzero with rfl | rfl
    · decide
    · decide
  · rw [Binary64.zero_sub hx (Bool.eq_false_of_not_eq_true hzero)]
    exact isFinite_neg hx

end Binary64

instance : FiniteScalar Float where
  isFinite_zero := by decide
  isFinite_one := by decide
  isFinite_two := by decide
  isFinite_negated h := Binary64.isFinite_zero_sub h

instance : FiniteScalar ComplexFloat where
  isFinite_zero := by decide
  isFinite_one := by decide
  isFinite_two := by decide
  isFinite_negated h := by
    obtain ⟨hre, him⟩ := Bool.and_eq_true_iff.mp h
    exact Bool.and_eq_true_iff.mpr
      ⟨Binary64.isFinite_zero_sub hre, Binary64.isFinite_zero_sub him⟩

end FractalFormula
