import Mathlib
import FractalFormula.Proofs.Derivative.Rational
import FractalFormula.Proofs.Simplify.Exact
import FractalFormula.Proofs.Tree.Acceptance

/-!
# Newton's method and derivatives of higher order

The expansion of a rational formula is its value in the power series over the field, where the
variable is its value in the environment plus the variable of the series, and all other names are
constants. A formula has an expansion wherever it has a value, which is the constant term, since a
power series with a constant term other than zero is a unit (`exists_expands`).

The formal derivatives of a formula at an environment are the constant terms of the derivatives of
its expansion. They are what repeated differentiation with a pass of simplification in between
evaluates to, and the map of Newton's method moves the variable by the quotient of the formula and
its derivative (`newtonMap_nthDerivative_exact`).
-/

namespace FractalFormula

open PowerSeries

variable {K : Type _} [Field K]

/-! ### Power series -/

/-- The constant term, as a homomorphism of algebras. -/
noncomputable def constantTerm : K⟦X⟧ →ₐ[K] K :=
  { constantCoeff with commutes' := fun x => by simp }

theorem constantTerm_apply (φ : K⟦X⟧) : constantTerm φ = constantCoeff φ := rfl

instance isLocalHom_constantTerm : IsLocalHom (constantTerm (K := K)) :=
  ⟨fun _ => isUnit_iff_constantCoeff.mpr⟩

/-- The variable `name` moves away from its value, and all other names stand still. -/
noncomputable def expansion (value? : String → Option K) (name v : String) : Option K⟦X⟧ :=
  (value? v).map fun x => if v = name then C x + X else C x

section

variable {value? : String → Option K} {name : String}

theorem map_expansion : (fun v => (expansion value? name v).map constantTerm) = value? := by
  funext v
  rw [expansion, Option.map_map]
  cases value? v with
  | none => rfl
  | some x =>
    rw [Option.map_some, Function.comp_apply, constantTerm_apply]
    split_ifs
    · rw [map_add, constantCoeff_C, constantCoeff_X, add_zero]
    · rw [constantCoeff_C]

/-- Nothing moves if the variable has no value. -/
theorem expansion_eq_of_none (h : value? name = none) :
    expansion value? name = fun v => (value? v).map (Algebra.ofId K K⟦X⟧) := by
  funext v
  rw [expansion]
  cases hv : value? v with
  | none => rfl
  | some x =>
    have hne : v ≠ name := by
      rintro rfl
      rw [hv] at h
      nomatch h
    rw [Option.map_some, Option.map_some, if_neg hne]
    rfl

theorem moves_expansion : Tree.Moves (d⁄dX K) name (expansion value? name) where
  self h := by
    obtain ⟨x, -, rfl⟩ := Option.map_eq_some_iff.mp h
    rw [if_pos rfl, map_add, derivative_C, derivative_X, zero_add]
  other hv h := by
    obtain ⟨x, -, rfl⟩ := Option.map_eq_some_iff.mp h
    rw [if_neg hv, derivative_C]

end

namespace Tree

variable [CharZero K] {I : Interpretation K}

/-! ### Lifting -/

/-- Where a rational formula has a value at the images of elements, it has one at the elements, if
only units are mapped to units. -/
theorem Rational.lift {R S : Type _} [CommRing R] [Algebra K R] [Nontrivial R] [CommRing S]
    [Algebra K S] [Nontrivial S] {value? : String → Option R} {t : Tree (Exact I)} {y : S}
    (ht : t.Rational) (g : R →ₐ[K] S) [IsLocalHom g]
    (h : t.DenotesIn (fun name => (value? name).map g) y) :
    ∃ x, t.DenotesIn value? x ∧ g x = y := by
  induction h with
  | num x cs => exact ⟨_, .num x cs, g.commutes x⟩
  | var cs hname =>
    obtain ⟨x, hx, rfl⟩ := Option.map_eq_some_iff.mp hname
    exact ⟨x, .var cs hx, rfl⟩
  | negation o _ ih =>
    obtain ⟨x, hx, rfl⟩ := ih (rational_negation_iff.mp ht)
    exact ⟨-x, .negation o hx, map_neg g x⟩
  | binary _ _ hz ihl ihr =>
    obtain ⟨hl, hr, hwhole⟩ := rational_binary_iff.mp ht
    obtain ⟨x, hx, rfl⟩ := ihl hl
    obtain ⟨y, hy, rfl⟩ := ihr hr
    -- The base of a power may be no unit, but the exponent is an integer in either algebra.
    obtain ⟨z, hz'⟩ := hz.exists_of_map g fun ho => by
      obtain ⟨n, hn⟩ := (hwhole ho).exists_denotesIn (R := R)
      exact ⟨n, hy.eq (hn value?)⟩
    exact ⟨z, .binary hx hy hz', (hz'.map g).eq hz⟩
  | call => exact absurd ht not_rational_call

/-! ### Expansions -/

variable {e : Environment (Exact I)} {name : String} {t d : Tree (Exact I)} {φ ψ : K⟦X⟧}

/-- The tree has the expansion `φ` in the variable at the environment. -/
def Expands (e : Environment (Exact I)) (name : String) (φ : K⟦X⟧) (t : Tree (Exact I)) : Prop :=
  t.DenotesIn (expansion (Exact.elements e.value?) name) φ

/-- The tree has a value: no division by zero, and no negative power of zero. -/
def IsDefined (e : Environment (Exact I)) (t : Tree (Exact I)) : Prop :=
  ∃ x, t.evaluateUnder e = .ok (.value x)

/-- A rational formula with a value expands around it. -/
theorem Rational.exists_expands {x : K} (ht : t.Rational) (hx : t.evaluateUnder e = .ok (.value x))
    (name : String) : ∃ φ, t.Expands e name φ ∧ constantCoeff φ = x := by
  have hterm : t.DenotesIn
      (fun v => (expansion (Exact.elements e.value?) name v).map constantTerm) x := by
    rw [map_expansion]
    exact evaluateUnder_eq_ok_iff.mp hx
  exact ht.lift constantTerm hterm

namespace Expands

theorem eq (hφ : t.Expands e name φ) (hψ : t.Expands e name ψ) : φ = ψ := DenotesIn.eq hφ hψ

omit [CharZero K] in
theorem denotesIn (hφ : t.Expands e name φ) :
    t.DenotesIn (Exact.elements e.value?) (constantCoeff φ) := by
  have h := DenotesIn.map constantTerm hφ
  rw [map_expansion] at h
  exact h

theorem evaluateUnder (hφ : t.Expands e name φ) :
    t.evaluateUnder e = .ok (.value (constantCoeff φ)) :=
  evaluateUnder_eq_ok_iff.mpr hφ.denotesIn

theorem exists_derivative (hφ : t.Expands e name φ) : ∃ d, t.derivative name = .ok d := by
  have hok : (t.evaluateWith e.value?).isOk := by
    rw [← evaluateUnder_eq, hφ.evaluateUnder]
    rfl
  rw [isOk_evaluateWith_iff] at hok
  exact isOk_iff.mp (isOk_derivative_iff.mpr (hok.mono fun _ _ => trivial))

/-- The derivative of a rational formula expands to the derivative of the expansion. -/
theorem derivative (hφ : t.Expands e name φ) (ht : t.Rational) (hd : t.derivative name = .ok d)
    (hdefined : d.IsDefined e) : d.Expands e name (d⁄dX K φ) := by
  obtain ⟨x, hx⟩ := hdefined
  obtain ⟨ψ, hψ, -⟩ := (ht.derivative hd).exists_expands hx name
  rw [← DenotesIn.derivative hφ ht moves_expansion hd hψ]
  exact hψ

theorem simplify (hφ : t.Expands e name φ) (ht : t.Rational) : t.simplify.Expands e name φ :=
  (DenotesIn.simplify hφ ht.bare ht.exponents).denotes

/-- A formula that changes has a variable with a value. -/
theorem exists_value (hφ : t.Expands e name φ) (hne : constantCoeff (d⁄dX K φ) ≠ 0) :
    ∃ a, e.value? name = some (.value a) := by
  by_contra hno
  have hnone : Exact.elements e.value? name = none :=
    Option.eq_none_iff_forall_ne_some.mpr fun a ha => hno ⟨a, Exact.elements_eq_some_iff.mp ha⟩
  -- Then the expansion is a constant, and has no slope.
  have hconstant := hφ.denotesIn.map (Algebra.ofId K K⟦X⟧)
  rw [← expansion_eq_of_none hnone] at hconstant
  rw [hφ.eq hconstant] at hne
  exact hne (by simp [Algebra.ofId_apply])

end Expands

/-! ### Derivatives of higher order -/

/-- Every derivative on the way to order `n` has a value before it is simplified. -/
def DefinedTo (e : Environment (Exact I)) (name : String) : Nat → Tree (Exact I) → Prop
  | 0, _ => True
  | n + 1, t => ∀ d, t.derivative name = .ok d → d.IsDefined e ∧ DefinedTo e name n d.simplify

/-- The derivative of order `n` expands to the derivative of order `n` of the expansion. -/
theorem Expands.nthDerivative {n : Nat} (hφ : t.Expands e name φ) (ht : t.Rational)
    (hdefined : t.DefinedTo e name n) :
    ∃ g, t.nthDerivative name n = .ok g ∧ g.Expands e name ((d⁄dX K)^[n] φ) := by
  induction n generalizing t φ with
  | zero => exact ⟨t, rfl, hφ⟩
  | succ n ih =>
    obtain ⟨d, hd⟩ := hφ.exists_derivative
    obtain ⟨hslope, hrest⟩ := hdefined d hd
    have hdφ := hφ.derivative ht hd hslope
    have hdrational := ht.derivative hd
    -- The simplified derivative is rational again, and expands as the derivative does.
    obtain ⟨g, hg, hgφ⟩ := ih (hdφ.simplify hdrational) (hdrational.simplify hdφ) hrest
    refine ⟨g, ?_, hgφ⟩
    rw [Tree.nthDerivative, hd]
    exact hg

/-! ### Newton's method -/

/-- The map of Newton's method moves the variable by the quotient of the formula and its
derivative. -/
theorem Expands.newtonMap (hφ : t.Expands e name φ) (ht : t.Rational)
    (hd : t.derivative name = .ok d) (hdefined : d.IsDefined e)
    (hne : constantCoeff (d⁄dX K φ) ≠ 0) :
    ∃ a g, e.value? name = some (.value a) ∧ t.newtonMap name = .ok g ∧
      g.evaluateUnder e = .ok (.value (a - constantCoeff φ / constantCoeff (d⁄dX K φ))) := by
  obtain ⟨a, ha⟩ := hφ.exists_value hne
  -- No derivative is taken after the simplifications, so values in the field are enough.
  have hslope := (hφ.derivative ht hd hdefined).denotesIn
  obtain ⟨hrational', hslope'⟩ := (ht.derivative hd).simplifyTimes hslope newtonPasses
  have hvar : (var name : Tree (Exact I)).DenotesIn (Exact.elements e.value?) a :=
    .var [] (Exact.elements_eq_some_iff.mpr ha)
  have hquotient := hφ.denotesIn.div hslope' hne.isUnit (div_mul_cancel₀ _ hne)
  obtain ⟨-, hmap⟩ := ((Rational.var name).sub (ht.div hrational')).simplifyTimes
    (hvar.sub hquotient) newtonPasses
  refine ⟨a, _, ha, ?_, evaluateUnder_eq_ok_iff.mpr hmap⟩
  rw [Tree.newtonMap, hd]
  rfl

/-- Newton's method and the derivatives of all orders are right in exact arithmetic, for rational
formulas. Where a formula has a value it has one expansion. The map of Newton's method is the
variable less the quotient of the formula and its formal derivative, where the derivative has a value
other than zero, and the derivative of order `n` is the formal one where the derivatives on the way
have values. -/
theorem newtonMap_nthDerivative_exact (e : Environment (Exact I)) (f : Tree (Exact I))
    (name : String) (x : K) (hf : f.Rational) (hx : f.evaluateUnder e = .ok (.value x)) :
    ∃ φ : K⟦X⟧, (∀ ψ, f.Expands e name ψ ↔ ψ = φ) ∧ constantCoeff φ = x ∧
      (∃ d, f.derivative name = .ok d ∧ (d.IsDefined e → constantCoeff (d⁄dX K φ) ≠ 0 →
        ∃ a g, e.value? name = some (.value a) ∧ f.newtonMap name = .ok g ∧
          g.evaluateUnder e = .ok (.value (a - x / constantCoeff (d⁄dX K φ))))) ∧
      ∀ n, f.DefinedTo e name n → ∃ g, f.nthDerivative name n = .ok g ∧
        g.evaluateUnder e = .ok (.value (constantCoeff ((d⁄dX K)^[n] φ))) := by
  obtain ⟨φ, hφ, rfl⟩ := hf.exists_expands hx name
  refine ⟨φ, fun ψ => ⟨fun hψ => hψ.eq hφ, fun h => h ▸ hφ⟩, rfl, ?_, fun n hn => ?_⟩
  · obtain ⟨d, hd⟩ := hφ.exists_derivative
    exact ⟨d, hd, hφ.newtonMap hf hd⟩
  · obtain ⟨g, hg, hgφ⟩ := hφ.nthDerivative hf hn
    exact ⟨g, hg, hgφ.evaluateUnder⟩

/-! ### An example -/

/-- The formula `z ^ (1 + 1) - 2`. -/
noncomputable def parabola : Tree (Exact rationals) := (var "z").pow (1 + 1) - two

/-- Its derivative. -/
noncomputable def parabolaSlope : Tree (Exact rationals) :=
  (1 + 1) * (var "z").pow (1 + 1 - 1) * 1 - 0

theorem whole_one_add_one : (1 + 1 : Tree (Exact rationals)).Whole := by
  refine ⟨closed_bare.add closed_bare.one closed_bare.one, 2, ?_⟩
  rw [Int.cast_ofNat, ← one_add_one_eq_two]
  exact (denotes_one.add denotes_one).evaluateWith

theorem rational_parabola : parabola.Rational :=
  ((Rational.var "z").pow (.add (.num 1) (.num 1)) whole_one_add_one).sub (.num _)

theorem simplify_parabolaSlope : parabolaSlope.simplify = two * var "z" := by
  have hone : (1 : Tree (Exact rationals)) = num (.value 1) := rfl
  have htwo : (two : Tree (Exact rationals)) = num (.value 2) := by rw [two, Exact.two_eq]
  have hz : (var "z" : Tree (Exact rationals)).simplify = var "z" := simplify_var "z"
  have hsum : (1 + 1 : Tree (Exact rationals)).simplify = two :=
    simplify_eq_of_folds (.binary rfl rfl)
  have hexponent : (1 + 1 - 1 : Tree (Exact rationals)).simplify = 1 := by
    have hvalue : (1 + 1 - 1 : Tree (Exact rationals)).Denotes Bindings.empty.get? (1 + 1 - 1) :=
      (denotes_one.add denotes_one).sub denotes_one
    rw [hvalue.simplify_eq whole_one_add_one.sub_one.bare, add_sub_cancel_right]
    rfl
  have hpower : ((var "z").pow (1 + 1 - 1) : Tree (Exact rationals)).simplify = var "z" := by
    refine simplify_eq_of_reduce ?_
    rw [List.map_cons, List.map_singleton, hz, hexponent]
    show reducePower (fun t => some t.simplify) (var "z") 1 = _
    simp [reducePower, isZero_iff, isOne_iff, hone, num, var]
  have hproduct : ((1 + 1) * (var "z").pow (1 + 1 - 1) : Tree (Exact rationals)).simplify =
      two * var "z" := by
    refine simplify_eq_of_reduce ?_
    rw [List.map_cons, List.map_singleton, hsum, hpower]
    have hminus : (2 : ℚ) ≠ -1 := by norm_num
    have hsame : (two == (var "z" : Tree (Exact rationals))) = false := rfl
    show some (reduceProduct two (var "z")) = _
    rw [reduceProduct, hsame]
    simp [isZero_iff, isOne_iff, isMinusOne_iff, htwo, hminus, num, var]
  have htimes : ((1 + 1) * (var "z").pow (1 + 1 - 1) * 1 : Tree (Exact rationals)).simplify =
      two * var "z" := by
    refine simplify_eq_of_reduce ?_
    rw [List.map_cons, List.map_singleton, hproduct, hone, simplify_num]
    have hzero : (two * var "z" : Tree (Exact rationals)).isZero = false := rfl
    show some (reduceProduct (two * var "z") 1) = _
    rw [reduceProduct, hzero]
    simp [isZero_iff, isOne_iff, hone, num]
  have hzero : (0 : Tree (Exact rationals)).simplify = 0 := simplify_num 0
  refine simplify_eq_of_reduce ?_
  rw [List.map_cons, List.map_singleton, htimes, hzero]
  have hright : (0 : Tree (Exact rationals)).isZero := isZero_iff.mpr rfl
  show some (reduceDifference (two * var "z") 0) = _
  rw [reduceDifference, if_pos hright]

/-- Its expansion at three. -/
noncomputable def parabolaSeries : ℚ⟦X⟧ := (C 3 + X) ^ 2 - C 2

theorem expands_parabola : parabola.Expands atThree "z" parabolaSeries := by
  have hz : (var "z" : Tree (Exact rationals)).Expands atThree "z" (C 3 + X) := .var [] rfl
  have hexponent : (1 + 1 : Tree (Exact rationals)).Expands atThree "z" (2 : ℤ) := by
    rw [Int.cast_ofNat, ← one_add_one_eq_two]
    exact .binary denotesIn_one denotesIn_one (.add 1 1)
  rw [parabolaSeries, map_ofNat]
  exact DenotesIn.sub (.binary hz hexponent (.pow (isPower_two_iff.mpr rfl))) denotesIn_two

theorem isDefined_parabolaSlope : parabolaSlope.IsDefined atThree := by
  have hz : (var "z" : Tree (Exact rationals)).Denotes atThree.value? 3 := .var [] rfl
  have hsum : (1 + 1 : Tree (Exact rationals)).Denotes atThree.value? (1 + 1) :=
    denotes_one.add denotes_one
  have hpower : Interpretation.pow rationals 3 (1 + 1 - 1) = some 3 := by
    rw [add_sub_cancel_right, ← Int.cast_one]
    exact Interpretation.pow_intCast_iff.mpr ⟨by norm_num, zpow_one 3⟩
  have hproduct := (hsum.mul (hz.pow (hsum.sub denotes_one) hpower)).mul denotes_one
  exact ⟨_, (evaluateUnder_eq _ _).trans (hproduct.sub denotes_zero).evaluateWith⟩

theorem definedTo_parabola : parabola.DefinedTo atThree "z" 2 := by
  have hz : (var "z" : Tree (Exact rationals)).Denotes atThree.value? 3 := .var [] rfl
  rintro d ⟨⟩
  refine ⟨isDefined_parabolaSlope, ?_⟩
  show parabolaSlope.simplify.DefinedTo atThree "z" 1
  rw [simplify_parabolaSlope]
  rintro d ⟨⟩
  exact ⟨⟨_, (evaluateUnder_eq _ _).trans
    ((denotes_zero.mul hz).add (denotes_two.mul denotes_one)).evaluateWith⟩, trivial⟩

/-- A step of Newton's method towards the root of two, and the second derivative, where a pass of
simplification stands between the two derivatives. -/
theorem newtonMap_nthDerivative_exact_parabola :
    parabola.Rational ∧ parabola.evaluateUnder atThree = .ok (.value 7) ∧
      (∃ g, parabola.newtonMap "z" = .ok g ∧
        g.evaluateUnder atThree = .ok (.value (11 / 6))) ∧
      ∃ g, parabola.nthDerivative "z" 2 = .ok g ∧ g.evaluateUnder atThree = .ok (.value 2) := by
  have hx : parabola.evaluateUnder atThree = .ok (.value 7) := by
    have hterm : constantCoeff parabolaSeries = 7 := by
      simp only [parabolaSeries, map_sub, map_pow, map_add, constantCoeff_X, map_ofNat]
      norm_num
    rw [expands_parabola.evaluateUnder, hterm]
  obtain ⟨φ, hφ, -, ⟨d, hd, hnewton⟩, hnth⟩ :=
    newtonMap_nthDerivative_exact atThree parabola "z" 7 rational_parabola hx
  obtain rfl := (hφ _).mp expands_parabola
  have htwo : d⁄dX ℚ (2 : ℚ⟦X⟧) = 0 := (d⁄dX ℚ).map_natCast 2
  have hline : d⁄dX ℚ (C 3 + X : ℚ⟦X⟧) = 1 := by
    rw [map_add, derivative_C, derivative_X, zero_add]
  have hfirst : d⁄dX ℚ parabolaSeries = 2 * (C 3 + X) := by
    rw [parabolaSeries, map_sub, derivative_pow, hline, derivative_C]
    norm_num
  have hsecond : (d⁄dX ℚ)^[2] parabolaSeries = 2 := by
    rw [Function.iterate_succ_apply, Function.iterate_one, hfirst, derivation_mul, hline, htwo,
      zero_mul, zero_add, mul_one]
  have hslope : constantCoeff (d⁄dX ℚ parabolaSeries) = 6 := by
    rw [hfirst, map_mul, map_ofNat, map_add, constantCoeff_C, constantCoeff_X]
    norm_num
  refine ⟨rational_parabola, hx, ?_, ?_⟩
  · obtain rfl : parabolaSlope = d := Except.ok.inj hd
    obtain ⟨a, g, ha, hg, hvalue⟩ := hnewton isDefined_parabolaSlope (by rw [hslope]; norm_num)
    obtain rfl : 3 = a := Exact.value.inj (Option.some.inj ha)
    refine ⟨g, hg, hvalue.trans ?_⟩
    rw [hslope]
    norm_num
  · obtain ⟨g, hg, hvalue⟩ := hnth 2 definedTo_parabola
    rw [hsecond, map_ofNat] at hvalue
    exact ⟨g, hg, hvalue⟩
end Tree

end FractalFormula
