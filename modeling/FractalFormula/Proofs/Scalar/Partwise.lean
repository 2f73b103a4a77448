import FractalFormula.Proofs.Decimal.Sign
import FractalFormula.Proofs.Scalar.Lawful

/-!
# Scalars by their parts

The real and the imaginary part determine a scalar, and sums and differences are taken part by part.
Real numbers have literals among the scalars, and imaginary numbers have them as soon as some scalar
has an imaginary part. Both kinds of scalars satisfy this.
-/

namespace FractalFormula

/-- Scalars that are determined by their parts, and have the literals that their parts ask for. -/
class PartwiseNumeral (α : Type _) [Numeral α] : Prop extends LawfulNumeral α where
  eq_of_parts {x y : α} : Numeral.parts x = Numeral.parts y → x = y
  parts_add (x y : α) : Numeral.parts (x + y) =
    ((Numeral.parts x).1 + (Numeral.parts y).1, (Numeral.parts x).2 + (Numeral.parts y).2)
  parts_sub (x y : α) : Numeral.parts (x - y) =
    ((Numeral.parts x).1 - (Numeral.parts y).1, (Numeral.parts x).2 - (Numeral.parts y).2)
  isFinite_parts {x : α} : Scalar.isFinite x →
    (Numeral.parts x).1.isFinite ∧ (Numeral.parts x).2.isFinite
  ofLiteral?_zero : Numeral.ofLiteral? 0.0 false = some (0 : α)
  isSome_real (v : Float) : (Numeral.ofLiteral? v false : Option α).isSome
  isSome_imaginary {x : α} : ((Numeral.parts x).2 == 0.0) = false →
    ∀ v, (Numeral.ofLiteral? v true : Option α).isSome

instance : PartwiseNumeral Float where
  eq_of_parts h := congrArg Prod.fst h
  parts_add _ _ := by
    have hzero : (0.0 : Float) + 0.0 = 0.0 := by decide
    exact Prod.ext rfl hzero.symm
  parts_sub _ _ := by
    have hzero : (0.0 : Float) - 0.0 = 0.0 := by decide
    exact Prod.ext rfl hzero.symm
  isFinite_parts h := by
    have hzero : (0.0 : Float).isFinite := by decide
    exact ⟨h, hzero⟩
  ofLiteral?_zero := rfl
  isSome_real _ := rfl
  isSome_imaginary h := by
    have hzero : ((0.0 : Float) == 0.0) = true := by decide
    nomatch hzero.symm.trans h

instance : PartwiseNumeral ComplexFloat where
  eq_of_parts {z w} h := by
    obtain ⟨re, im⟩ := z
    obtain ⟨re', im'⟩ := w
    obtain ⟨rfl, rfl⟩ := Prod.mk.inj h
    rfl
  parts_add _ _ := rfl
  parts_sub _ _ := rfl
  isFinite_parts h := Bool.and_eq_true_iff.mp h
  ofLiteral?_zero := rfl
  isSome_real _ := rfl
  isSome_imaginary _ _ := rfl

/-- Neither part is the negative zero. -/
def Numeral.NoNegativeZero {α : Type _} [Numeral α] (x : α) : Prop :=
  (parts x).1 ≠ -0.0 ∧ (parts x).2 ≠ -0.0

end FractalFormula
