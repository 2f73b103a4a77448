import FractalFormula.Proofs.Decimal.Bits
import FractalFormula.Scalar.ComplexFloat
import FractalFormula.Scalar.Real

/-!
# Literals among the scalars

What reading and writing of numbers rely on: the scalar of a literal is taken apart into the
value of the literal and a zero. Both kinds of scalars satisfy it.
-/

namespace FractalFormula

/-- Scalars whose literals are taken apart into what they were made from. -/
class LawfulNumeral (α : Type _) [Numeral α] : Prop where
  parts_real {v : Float} {x : α} : Numeral.ofLiteral? v false = some x →
    Numeral.parts x = (v, 0.0)
  parts_imaginary {v : Float} {x : α} : Numeral.ofLiteral? v true = some x →
    Numeral.parts x = (0.0, v)
  /-- The imaginary zero is zero. -/
  imaginary_zero {x : α} : Numeral.ofLiteral? 0.0 true = some x →
    Numeral.ofLiteral? 0.0 false = some x
  beq_self {v : Float} {imaginary : Bool} {x : α} : Numeral.ofLiteral? v imaginary = some x →
    (v == v) = true → (x == x) = true

instance : LawfulNumeral Float where
  parts_real h := by
    obtain rfl := Option.some.inj h
    rfl
  parts_imaginary h := nomatch h
  imaginary_zero h := nomatch h
  beq_self {v imaginary x} h hv := by
    cases imaginary with
    | true => nomatch h
    | false =>
      obtain rfl := Option.some.inj h
      exact hv

instance : LawfulNumeral ComplexFloat where
  parts_real h := by
    obtain rfl := Option.some.inj h
    rfl
  parts_imaginary h := by
    obtain rfl := Option.some.inj h
    rfl
  imaginary_zero h := h
  beq_self {v imaginary x} h hv := by
    have hzero : ((0.0 : Float) == 0.0) = true := by decide
    obtain rfl := Option.some.inj h
    cases imaginary with
    | true => exact Bool.and_eq_true_iff.mpr ⟨hzero, hv⟩
    | false => exact Bool.and_eq_true_iff.mpr ⟨hv, hzero⟩

end FractalFormula
