import FractalFormula.Proofs.Scalar.Finite

/-!
# Scalars that compare with themselves

Numbers equal themselves, unless they are undefined: the passes over trees compare numbers, and rely
on this for the constants, finite numbers and negations that they make up. Both kinds of scalars
satisfy it.
-/

namespace FractalFormula

/-- Scalars whose constants and finite numbers equal themselves, and so do the negations of numbers
that do. -/
class ComparableScalar (α : Type _) [Scalar α] : Prop where
  beq_self_zero : ((0 : α) == 0) = true
  beq_self_one : ((1 : α) == 1) = true
  beq_self_two : ((Scalar.two : α) == Scalar.two) = true
  beq_self_of_isFinite {x : α} : Scalar.isFinite x → (x == x) = true
  beq_self_negated {x : α} : (x == x) = true → (Scalar.negated x == Scalar.negated x) = true

namespace Binary64

open Float.Model (Format)
open Float.Model.UnpackedFloat

theorem beq_self_of_isFinite {x : Float} (hx : x.isFinite) : (x == x) = true :=
  (beq_self_iff x).mpr (Nat.le_of_lt ((isFinite_iff x).mp hx))

/-- What is neither finite nor undefined is infinite. -/
theorem unpack_eq_infinity {x : Float} (hx : (x == x) = true) (hfinite : ¬x.isFinite) :
    ∃ s, x.toModel.unpack = .infinity s := by
  rw [beq_self_iff] at hx
  rw [isFinite_iff] at hfinite
  have h : Unpacks x.toBits.toNat x.toModel.unpack := unpacks x.toBits.toBitVec
  generalize x.toModel.unpack = u at h
  cases h with
  | infinite s _ _ => exact ⟨s, rfl⟩
  | zero s hzero =>
    have hpos : 0 < infinityBits := by decide
    omega
  | finite s m e hm hpos hlt _ => omega
  | nan hgt => omega

theorem beq_self_zero_sub {x : Float} (hx : (x == x) = true) : (0.0 - x == 0.0 - x) = true := by
  by_cases hfinite : x.isFinite
  · exact beq_self_of_isFinite (isFinite_zero_sub hfinite)
  · obtain ⟨s, hs⟩ := unpack_eq_infinity hx hfinite
    have hsub : 0.0 - x = Float.ofModel (.pack (.infinity (-s))) := by
      show Float.ofModel (.pack (sub Format.binary64 (.zero .positive) x.toModel.unpack)) = _
      rw [hs]
      rfl
    rw [hsub]
    cases s <;> decide

end Binary64

instance : ComparableScalar Float where
  beq_self_zero := by decide
  beq_self_one := by decide
  beq_self_two := by decide
  beq_self_of_isFinite := Binary64.beq_self_of_isFinite
  beq_self_negated := Binary64.beq_self_zero_sub

instance : ComparableScalar ComplexFloat where
  beq_self_zero := by decide
  beq_self_one := by decide
  beq_self_two := by decide
  beq_self_of_isFinite h := by
    obtain ⟨hre, him⟩ := Bool.and_eq_true_iff.mp h
    exact Bool.and_eq_true_iff.mpr
      ⟨Binary64.beq_self_of_isFinite hre, Binary64.beq_self_of_isFinite him⟩
  beq_self_negated h := by
    obtain ⟨hre, him⟩ := Bool.and_eq_true_iff.mp h
    exact Bool.and_eq_true_iff.mpr
      ⟨Binary64.beq_self_zero_sub hre, Binary64.beq_self_zero_sub him⟩

end FractalFormula
