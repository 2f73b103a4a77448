import Mathlib
import FractalFormula.Proofs.Scalar.Calculus

/-!
# Quotients of power series

The laws of a calculus can be satisfied: they hold of the quotients of power series with complex
coefficients, with the derivation in the variable of the series and the conjugation of coefficients.
The exponential of the variable and its logarithm are defined there, and the parts of a quotient;
the other functions are nowhere defined.
-/

namespace FractalFormula

open PowerSeries TensorProduct

/-- The quotients of power series. -/
def Series : Type := FractionRing ℂ⟦X⟧

namespace Series

noncomputable instance : Field Series := inferInstanceAs (Field (FractionRing ℂ⟦X⟧))

noncomputable instance : Algebra ℂ⟦X⟧ Series := inferInstanceAs (Algebra ℂ⟦X⟧ (FractionRing ℂ⟦X⟧))

instance : IsFractionRing ℂ⟦X⟧ Series :=
  inferInstanceAs (IsFractionRing ℂ⟦X⟧ (FractionRing ℂ⟦X⟧))

noncomputable instance : Algebra ℂ Series := inferInstanceAs (Algebra ℂ (FractionRing ℂ⟦X⟧))

instance : IsScalarTower ℂ ℂ⟦X⟧ Series :=
  inferInstanceAs (IsScalarTower ℂ ℂ⟦X⟧ (FractionRing ℂ⟦X⟧))

instance : CharZero Series := charZero_of_injective_algebraMap (algebraMap ℂ Series).injective

/-- A power series as a quotient. -/
noncomputable abbrev ofPower : ℂ⟦X⟧ →+* Series := algebraMap ℂ⟦X⟧ Series

theorem ofPower_injective : Function.Injective ofPower := IsFractionRing.injective ℂ⟦X⟧ Series

/-! ### The derivation -/

/-- The derivation that extends the one of power series. Differentials of the quotients are those of
power series with quotients for coefficients. -/
noncomputable def derivation : Derivation ℤ Series Series :=
  have : Algebra.FormallyEtale ℂ⟦X⟧ Series := .of_isLocalization (nonZeroDivisors ℂ⟦X⟧)
  let onDifferentials : Series ⊗[ℂ⟦X⟧] Ω[ℂ⟦X⟧⁄ℂ] →ₗ[Series] Series :=
    LinearMap.liftBaseChange Series
      ((Algebra.linearMap ℂ⟦X⟧ Series).comp (d⁄dX ℂ).liftKaehlerDifferential)
  ((onDifferentials.comp
    (KaehlerDifferential.tensorKaehlerEquivOfFormallyEtale ℂ ℂ⟦X⟧ Series).symm.toLinearMap).compDer
      (KaehlerDifferential.D ℂ Series)).restrictScalars ℤ

theorem derivation_ofPower (f : ℂ⟦X⟧) : derivation (ofPower f) = ofPower (d⁄dX ℂ f) := by
  rw [derivation]
  simp [KaehlerDifferential.tensorKaehlerEquivOfFormallyEtale_symm_D_algebraMap]

/-! ### The conjugation -/

theorem conj_injective : Function.Injective (ofPower.comp (PowerSeries.map (starRingEnd ℂ))) :=
  ofPower_injective.comp (PowerSeries.map_injective _ (starRingEnd ℂ).injective)

/-- The conjugation of coefficients. -/
noncomputable def conj : Series →+* Series := IsFractionRing.lift conj_injective

theorem conj_ofPower (f : ℂ⟦X⟧) :
    conj (ofPower f) = ofPower (PowerSeries.map (starRingEnd ℂ) f) :=
  IsFractionRing.lift_algebraMap conj_injective f

theorem conj_conj (x : Series) : conj (conj x) = x := by
  obtain ⟨f, g, -, rfl⟩ := IsFractionRing.div_surjective ℂ⟦X⟧ x
  have htwice (f : ℂ⟦X⟧) : conj (conj (ofPower f)) = ofPower f := by
    rw [conj_ofPower, conj_ofPower]
    congr 1
    ext n
    simp
  rw [map_div₀, map_div₀, htwice, htwice]

theorem derivation_conj (x : Series) : derivation (conj x) = conj (derivation x) := by
  obtain ⟨f, g, hg, rfl⟩ := IsFractionRing.div_surjective ℂ⟦X⟧ x
  have hpower (f : ℂ⟦X⟧) : derivation (conj (ofPower f)) = conj (derivation (ofPower f)) := by
    rw [conj_ofPower, derivation_ofPower, derivation_ofPower, conj_ofPower]
    congr 1
    ext n
    simp [coeff_derivative]
  have hne : ofPower g ≠ 0 :=
    IsFractionRing.to_map_ne_zero_of_mem_nonZeroDivisors hg
  have hconj : conj (ofPower g) ≠ 0 := (map_ne_zero conj).mpr hne
  rw [map_div₀, derivation_div hconj, derivation_div hne, map_div₀, map_sub, map_mul, map_mul,
    map_pow, hpower, hpower]

/-! ### The functions -/

/-- The variable of the series. -/
noncomputable def indeterminate : Series := ofPower X

/-- The exponential series. -/
noncomputable def exponential : Series := ofPower (exp ℂ)

/-- The imaginary unit. -/
noncomputable def i : Series := ofPower (C Complex.I)

theorem derivation_indeterminate : derivation indeterminate = 1 := by
  rw [indeterminate, derivation_ofPower, derivative_X, map_one]

theorem derivation_exponential : derivation exponential = exponential := by
  rw [exponential, derivation_ofPower, derivative_exp]

theorem indeterminate_ne_zero : indeterminate ≠ 0 :=
  (map_ne_zero_iff _ ofPower_injective).mpr X_ne_zero

theorem exponential_ne_zero : exponential ≠ 0 := by
  intro h
  have hexp : exp ℂ = 0 := ofPower_injective (h.trans (map_zero ofPower).symm)
  simpa using congrArg constantCoeff hexp

open Classical in
/-- The value of a function that is defined at one element only. -/
noncomputable def onlyAt (element value u : Series) : Option Series :=
  if u = element then some value else none

theorem onlyAt_iff {element value u y : Series} :
    onlyAt element value u = some y ↔ u = element ∧ y = value := by
  rw [onlyAt]
  split_ifs with hu
  · simp [hu, eq_comm]
  · simp [hu]

/-- The exponential of the variable, its logarithm, and the parts of a quotient. -/
noncomputable def interpretation : Interpretation Series where
  apply
    | .exp, u => onlyAt indeterminate exponential u
    | .log, u => onlyAt exponential indeterminate u
    | .conj, u => some (conj u)
    | .re, u => some ((u + conj u) / 2)
    | .im, u => some ((u - conj u) / (2 * i))
    | _, _ => none
  power _ _ := none

/-- The laws of the functions. -/
noncomputable def calculus : Calculus interpretation derivation where
  conj := conj
  conj_conj := conj_conj
  conj_derivation := derivation_conj
  i := i
  i_mul_i := by rw [i, ← map_mul, ← map_mul, Complex.I_mul_I, map_neg, map_neg, map_one, map_one]
  circular := ⟨nofun, nofun, nofun, nofun, nofun⟩
  hyperbolic := ⟨nofun, nofun, nofun, nofun, nofun⟩
  asin := nofun
  acos := nofun
  atan := nofun
  acot := nofun
  asinh := nofun
  acosh := nofun
  atanh := nofun
  exp h := by
    obtain ⟨rfl, rfl⟩ := onlyAt_iff.mp h
    rw [derivation_exponential, derivation_indeterminate, mul_one]
  log h := by
    obtain ⟨rfl, rfl⟩ := onlyAt_iff.mp h
    rw [derivation_exponential, derivation_indeterminate, div_self exponential_ne_zero]
    exact ⟨exponential_ne_zero, rfl⟩
  sqrt := nofun
  power := nofun
  power_sub_one := nofun
  apply_conj _ := rfl
  apply_re _ := rfl
  apply_im _ := rfl
  abs := nofun
  arg := nofun

end Series

end FractalFormula
