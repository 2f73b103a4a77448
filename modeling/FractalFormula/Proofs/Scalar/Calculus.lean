import Mathlib
import FractalFormula.Proofs.Scalar.Exact

/-!
# Functions and a derivation

The catalogue of functions over a field of characteristic zero with a derivation. The functions are
partial: no field has, say, an arc tangent of the imaginary unit. The laws say what a value of a
function implies, and that other functions have values at the same argument if the law needs them.

The circular and the hyperbolic functions satisfy the same laws but for a sign. A sine and a cosine
are a point of the conic `c ^ 2 + σ * s ^ 2 = 1`, which is the circle for `σ = 1` and the hyperbola
for `σ = -1` (`Conic`).

From the laws follows the rate of every function, that is the derivation of its value, where the
rate is not singular. A value at a constant is a constant also there (`Calculus.constant`): at one,
say, the arc sine has no rate, but it still does not change.
-/

namespace FractalFormula

variable {K : Type _} [Field K]

/-- The laws of a sine, a cosine, a tangent and a cotangent on the conic `c ^ 2 + σ * s ^ 2 = 1`. -/
structure Conic (I : Interpretation K) (D : Derivation ℤ K K) (σ : K)
    (sine cosine tangent cotangent : Func) : Prop where
  sin {u s : K} : I.apply sine u = some s → ∃ c, I.apply cosine u = some c ∧ D s = c * D u
  cos {u c : K} : I.apply cosine u = some c → ∃ s, I.apply sine u = some s ∧ D c = -(σ * s * D u)
  conic {u s c : K} : I.apply sine u = some s → I.apply cosine u = some c → c ^ 2 + σ * s ^ 2 = 1
  tan {u y : K} : I.apply tangent u = some y →
    ∃ s c, I.apply sine u = some s ∧ I.apply cosine u = some c ∧ c ≠ 0 ∧ y = s / c
  cot {u y : K} : I.apply cotangent u = some y → ∃ x, I.apply tangent u = some x ∧ x ≠ 0 ∧ y = 1 / x

/-- The functions of the catalogue and the powers to exponents that are not integers, over a field
with a derivation. Where the left side of a law is defined, so is the right. -/
structure Calculus (I : Interpretation K) (D : Derivation ℤ K K) where
  /-- The conjugate, an involution that commutes with the derivation. -/
  conj : K →+* K
  conj_conj (x : K) : conj (conj x) = x
  conj_derivation (x : K) : D (conj x) = conj (D x)
  /-- The imaginary unit. -/
  i : K
  i_mul_i : i * i = -1
  circular : Conic I D 1 .sin .cos .tan .cot
  hyperbolic : Conic I D (-1) .sinh .cosh .tanh .coth
  asin {u y : K} : I.apply .asin u = some y → I.apply .sin y = some u ∧
    ∃ r, I.apply .sqrt (1 - u ^ 2) = some r ∧ I.apply .cos y = some r
  acos {u y : K} : I.apply .acos u = some y → I.apply .cos y = some u ∧
    ∃ r, I.apply .sqrt (1 - u ^ 2) = some r ∧ I.apply .sin y = some r
  atan {u y : K} : I.apply .atan u = some y → I.apply .tan y = some u
  acot {u y : K} : I.apply .acot u = some y → u ≠ 0 ∧ I.apply .atan (1 / u) = some y
  asinh {u y : K} : I.apply .asinh u = some y → I.apply .sinh y = some u ∧
    ∃ r, I.apply .sqrt (u ^ 2 + 1) = some r ∧ I.apply .cosh y = some r
  acosh {u y : K} : I.apply .acosh u = some y → I.apply .cosh y = some u ∧
    ∃ r r', I.apply .sqrt (u - 1) = some r ∧ I.apply .sqrt (u + 1) = some r' ∧
      I.apply .sinh y = some (r * r')
  atanh {u y : K} : I.apply .atanh u = some y → I.apply .tanh y = some u
  exp {u y : K} : I.apply .exp u = some y → D y = y * D u
  log {u y : K} : I.apply .log u = some y → u ≠ 0 ∧ D y = D u / u
  sqrt {u y : K} : I.apply .sqrt u = some y → y ^ 2 = u
  power {u v p : K} : I.power u v = some p → u ≠ 0 →
    ∃ l, I.apply .log u = some l ∧ D p = p * (D v * l + v * D u / u)
  power_sub_one {u v p : K} : I.power u v = some p → u ≠ 0 → I.power u (v - 1) = some (p / u)
  apply_conj (u : K) : I.apply .conj u = some (conj u)
  apply_re (u : K) : I.apply .re u = some ((u + conj u) / 2)
  apply_im (u : K) : I.apply .im u = some ((u - conj u) / (2 * i))
  abs {u y : K} : I.apply .abs u = some y → y ^ 2 = u * conj u
  arg {u y : K} : I.apply .arg u = some y →
    ∃ l, I.apply .log u = some l ∧ I.apply .im l = some y

variable {I : Interpretation K} {D : Derivation ℤ K K}

/-! ### Rates of products, squares and quotients -/

theorem derivation_mul {A R : Type _} [CommRing A] [CommRing R] [Algebra A R]
    {D : Derivation A R R} (x y : R) : D (x * y) = D x * y + x * D y := by
  rw [D.leibniz, smul_eq_mul, smul_eq_mul]
  ring

theorem derivation_sq (x : K) : D (x ^ 2) = 2 * x * D x := by
  rw [D.leibniz_pow, Nat.add_one_sub_one, pow_one, nsmul_eq_mul, smul_eq_mul, Nat.cast_ofNat,
    mul_assoc]

/-- A root of a constant is a constant. -/
theorem derivation_eq_zero_of_sq [CharZero K] {x : K} (h : D (x ^ 2) = 0) : D x = 0 := by
  rw [derivation_sq] at h
  obtain h | h := mul_eq_zero.mp h
  · obtain rfl : x = 0 := by simpa using h
    exact D.map_zero
  · exact h

theorem derivation_div {x y : K} (hy : y ≠ 0) : D (x / y) = (D x * y - x * D y) / y ^ 2 := by
  rw [D.leibniz_div, smul_eq_mul, smul_eq_mul, smul_eq_mul]
  field_simp

namespace Conic

variable {σ : K} {sine cosine tangent cotangent : Func} (h : Conic I D σ sine cosine tangent cotangent)

include h

theorem derivation_sine {y s c : K} (hs : I.apply sine y = some s)
    (hc : I.apply cosine y = some c) : D s = c * D y := by
  obtain ⟨c', hc', hDs⟩ := h.sin hs
  rw [hDs, Option.some.inj (hc.symm.trans hc')]

theorem derivation_cosine {y s c : K} (hs : I.apply sine y = some s)
    (hc : I.apply cosine y = some c) : D c = -(σ * s * D y) := by
  obtain ⟨s', hs', hDc⟩ := h.cos hc
  rw [hDc, Option.some.inj (hs.symm.trans hs')]

/-- The rate of the angle of a point. -/
theorem derivation_angle {y s c : K} (hs : I.apply sine y = some s)
    (hc : I.apply cosine y = some c) : D y = c * D s - s * D c := by
  rw [h.derivation_sine hs hc, h.derivation_cosine hs hc]
  linear_combination (-D y) * h.conic hs hc

/-- The angle of a constant point is a constant. -/
theorem angle_constant {y s c : K} (hs : I.apply sine y = some s) (hc : I.apply cosine y = some c)
    (hDs : D s = 0) (hDc : D c = 0) : D y = 0 := by
  rw [h.derivation_angle hs hc, hDs, hDc, mul_zero, mul_zero, sub_zero]

theorem derivation_tan {u y : K} (hy : I.apply tangent u = some y) :
    ∃ c, I.apply cosine u = some c ∧ c ≠ 0 ∧ 1 + σ * y ^ 2 = 1 / c ^ 2 ∧ D y = D u / c ^ 2 := by
  obtain ⟨s, c, hs, hc, hne, rfl⟩ := h.tan hy
  have hconic := h.conic hs hc
  refine ⟨c, hc, hne, ?_, ?_⟩
  · field_simp
    linear_combination hconic
  · rw [derivation_div hne, h.derivation_angle hs hc]
    ring

theorem derivation_cot {u y : K} (hy : I.apply cotangent u = some y) :
    ∃ s, I.apply sine u = some s ∧ s ≠ 0 ∧ D y = -(D u / s ^ 2) := by
  obtain ⟨x, hx, hxne, rfl⟩ := h.cot hy
  obtain ⟨s, c, hs, hc, hne, rfl⟩ := h.tan hx
  have hsne : s ≠ 0 := by
    rintro rfl
    exact hxne (zero_div c)
  refine ⟨s, hs, hsne, ?_⟩
  rw [one_div_div, derivation_div hsne, h.derivation_angle hs hc]
  ring

/-- The rate of an inverse of the tangent. -/
theorem derivation_of_tan {u y : K} (hu : I.apply tangent y = some u) :
    1 + σ * u ^ 2 ≠ 0 ∧ D y = D u / (1 + σ * u ^ 2) := by
  obtain ⟨c, -, hne, hconic, hDu⟩ := h.derivation_tan hu
  have hsq : c ^ 2 ≠ 0 := pow_ne_zero 2 hne
  rw [hconic, hDu]
  refine ⟨one_div_ne_zero hsq, ?_⟩
  field_simp

end Conic

namespace Calculus

variable (C : Calculus I D)

include C

/-! ### Inverse functions -/

theorem derivation_asin {u y : K} (hy : I.apply .asin u = some y) :
    ∃ r, I.apply .sqrt (1 - u ^ 2) = some r ∧ D u = r * D y := by
  obtain ⟨hsin, r, hr, hcos⟩ := C.asin hy
  exact ⟨r, hr, C.circular.derivation_sine hsin hcos⟩

theorem derivation_acos {u y : K} (hy : I.apply .acos u = some y) :
    ∃ r, I.apply .sqrt (1 - u ^ 2) = some r ∧ -D u = r * D y := by
  obtain ⟨hcos, r, hr, hsin⟩ := C.acos hy
  refine ⟨r, hr, ?_⟩
  rw [C.circular.derivation_cosine hsin hcos, one_mul, neg_neg]

theorem derivation_asinh {u y : K} (hy : I.apply .asinh u = some y) :
    ∃ r, I.apply .sqrt (u ^ 2 + 1) = some r ∧ D u = r * D y := by
  obtain ⟨hsinh, r, hr, hcosh⟩ := C.asinh hy
  exact ⟨r, hr, C.hyperbolic.derivation_sine hsinh hcosh⟩

theorem derivation_acosh {u y : K} (hy : I.apply .acosh u = some y) :
    ∃ r r', I.apply .sqrt (u - 1) = some r ∧ I.apply .sqrt (u + 1) = some r' ∧
      D u = r * r' * D y := by
  obtain ⟨hcosh, r, r', hr, hr', hsinh⟩ := C.acosh hy
  refine ⟨r, r', hr, hr', ?_⟩
  rw [C.hyperbolic.derivation_cosine hsinh hcosh]
  ring

theorem derivation_atan {u y : K} (hy : I.apply .atan u = some y) :
    1 + u ^ 2 ≠ 0 ∧ D y = D u / (1 + u ^ 2) := by
  have h := C.circular.derivation_of_tan (C.atan hy)
  rwa [one_mul] at h

theorem derivation_acot {u y : K} (hy : I.apply .acot u = some y) :
    1 + u ^ 2 ≠ 0 ∧ D y = -D u / (1 + u ^ 2) := by
  obtain ⟨hu, hatan⟩ := C.acot hy
  obtain ⟨hne, hDy⟩ := C.derivation_atan hatan
  have hrecip : 1 + (1 / u) ^ 2 = (1 + u ^ 2) / u ^ 2 := by
    field_simp
    ring
  rw [hrecip] at hne hDy
  have hne : 1 + u ^ 2 ≠ 0 := (div_ne_zero_iff.mp hne).1
  refine ⟨hne, ?_⟩
  rw [hDy, derivation_div hu, D.map_one_eq_zero]
  field_simp
  ring

theorem derivation_atanh {u y : K} (hy : I.apply .atanh u = some y) :
    1 - u ^ 2 ≠ 0 ∧ D y = D u / (1 - u ^ 2) := by
  have h := C.hyperbolic.derivation_of_tan (C.atanh hy)
  rwa [neg_one_mul, ← sub_eq_add_neg] at h

/-! ### Roots, absolute values and parts -/

theorem derivation_sqrt {u y : K} (hy : I.apply .sqrt u = some y) : 2 * y * D y = D u := by
  rw [← derivation_sq, C.sqrt hy]

theorem derivation_abs {u y : K} (hy : I.apply .abs u = some y) :
    2 * y * D y = C.conj u * D u + C.conj (C.conj u * D u) := by
  rw [← derivation_sq, C.abs hy, D.leibniz, C.conj_derivation, map_mul, C.conj_conj, smul_eq_mul,
    smul_eq_mul]
  ring

theorem derivation_i [CharZero K] : D C.i = 0 := by
  refine derivation_eq_zero_of_sq ?_
  rw [pow_two, C.i_mul_i, D.map_neg, D.map_one_eq_zero, neg_zero]

theorem derivation_re [CharZero K] (u : K) :
    D ((u + C.conj u) / 2) = (D u + C.conj (D u)) / 2 := by
  rw [derivation_div two_ne_zero, ← Nat.cast_ofNat, D.map_natCast, D.map_add, C.conj_derivation]
  field_simp
  ring

theorem i_ne_zero : C.i ≠ 0 := by
  intro h
  have := C.i_mul_i
  simp [h] at this

theorem derivation_im [CharZero K] (u : K) :
    D ((u - C.conj u) / (2 * C.i)) = (D u - C.conj (D u)) / (2 * C.i) := by
  have hi := C.i_ne_zero
  have htwo : D (2 : K) = 0 := by rw [← Nat.cast_ofNat, D.map_natCast]
  rw [derivation_div (mul_ne_zero two_ne_zero hi), D.leibniz, C.derivation_i, htwo, D.map_sub,
    C.conj_derivation]
  field_simp
  ring

theorem derivation_arg [CharZero K] {u y : K} (hy : I.apply .arg u = some y) :
    u ≠ 0 ∧ I.apply .im (D u / u) = some (D y) := by
  obtain ⟨l, hl, him⟩ := C.arg hy
  obtain ⟨hu, hDl⟩ := C.log hl
  refine ⟨hu, ?_⟩
  rw [C.apply_im] at him ⊢
  rw [← Option.some.inj him, C.derivation_im, hDl]

/-! ### Powers -/

variable {u v p l : K}

/-- The rate of a power. -/
theorem derivation_pow [CharZero K] (hp : I.pow u v = some p) (hu : u ≠ 0)
    (hl : I.apply .log u = some l) : D p = p * (D v * l + v * D u / u) := by
  by_cases hv : ∃ n : ℤ, v = n
  · obtain ⟨n, rfl⟩ := hv
    obtain ⟨-, rfl⟩ := Interpretation.pow_intCast_iff.mp hp
    rw [D.leibniz_zpow, D.map_intCast, zpow_sub_one₀ hu, zsmul_eq_mul, smul_eq_mul]
    ring
  · rw [Interpretation.pow_of_not_integer (not_exists.mp hv)] at hp
    obtain ⟨l', hl', hDp⟩ := C.power hp hu
    rw [hDp, Option.some.inj (hl.symm.trans hl')]

/-- The rate of a power to a constant, which needs no logarithm. -/
theorem derivation_pow_of_constant [CharZero K] (hp : I.pow u v = some p) (hu : u ≠ 0)
    (hv : D v = 0) : D p = v * (p / u) * D u := by
  by_cases hinteger : ∃ n : ℤ, v = n
  · obtain ⟨n, rfl⟩ := hinteger
    obtain ⟨-, rfl⟩ := Interpretation.pow_intCast_iff.mp hp
    rw [D.leibniz_zpow, zpow_sub_one₀ hu, zsmul_eq_mul, smul_eq_mul]
    ring
  · rw [Interpretation.pow_of_not_integer (not_exists.mp hinteger)] at hp
    obtain ⟨l, -, hDp⟩ := C.power hp hu
    rw [hDp, hv]
    ring

theorem pow_sub_one [CharZero K] (hp : I.pow u v = some p) (hu : u ≠ 0) :
    I.pow u (v - 1) = some (p / u) := by
  by_cases hinteger : ∃ n : ℤ, v = n
  · obtain ⟨n, rfl⟩ := hinteger
    obtain ⟨-, rfl⟩ := Interpretation.pow_intCast_iff.mp hp
    rw [← Int.cast_one, ← Int.cast_sub]
    refine Interpretation.pow_intCast_iff.mpr ⟨fun h => hu h.1, ?_⟩
    rw [zpow_sub_one₀ hu, div_eq_mul_inv]
  · have hv : ∀ n : ℤ, v - 1 ≠ n := fun n hn => hinteger ⟨n + 1, by
      rw [Int.cast_add, ← hn, Int.cast_one, sub_add_cancel]⟩
    rw [Interpretation.pow_of_not_integer (not_exists.mp hinteger)] at hp
    rw [Interpretation.pow_of_not_integer hv]
    exact C.power_sub_one hp hu

/-! ### Constants -/

/-- A function of a constant is a constant. -/
theorem constant [CharZero K] {f : Func} {u y : K} (hf : f ≠ .unknown)
    (hy : I.apply f u = some y) (hu : D u = 0) : D y = 0 := by
  have hconj : D (C.conj u) = 0 := by rw [C.conj_derivation, hu, map_zero]
  have hsq : D (u ^ 2) = 0 := by rw [derivation_sq, hu, mul_zero]
  have hsqrt {w r : K} (hr : I.apply .sqrt w = some r) (hw : D w = 0) : D r = 0 := by
    refine derivation_eq_zero_of_sq ?_
    rw [C.sqrt hr, hw]
  cases f with
  | sin =>
    obtain ⟨c, -, hDy⟩ := C.circular.sin hy
    rw [hDy, hu, mul_zero]
  | cos =>
    obtain ⟨s, -, hDy⟩ := C.circular.cos hy
    rw [hDy, hu, mul_zero, neg_zero]
  | tan =>
    obtain ⟨c, -, -, -, hDy⟩ := C.circular.derivation_tan hy
    rw [hDy, hu, zero_div]
  | cot =>
    obtain ⟨s, -, -, hDy⟩ := C.circular.derivation_cot hy
    rw [hDy, hu, zero_div, neg_zero]
  | asin =>
    -- At `1` and `-1` the rate is singular, but the sine and the cosine of `y` are both constant.
    obtain ⟨hsin, r, hr, hcos⟩ := C.asin hy
    have hDr : D r = 0 := hsqrt hr (by rw [D.map_sub, D.map_one_eq_zero, hsq, sub_zero])
    exact C.circular.angle_constant hsin hcos hu hDr
  | acos =>
    obtain ⟨hcos, r, hr, hsin⟩ := C.acos hy
    have hDr : D r = 0 := hsqrt hr (by rw [D.map_sub, D.map_one_eq_zero, hsq, sub_zero])
    exact C.circular.angle_constant hsin hcos hDr hu
  | atan => rw [(C.derivation_atan hy).2, hu, zero_div]
  | acot => rw [(C.derivation_acot hy).2, hu, neg_zero, zero_div]
  | sinh =>
    obtain ⟨c, -, hDy⟩ := C.hyperbolic.sin hy
    rw [hDy, hu, mul_zero]
  | cosh =>
    obtain ⟨s, -, hDy⟩ := C.hyperbolic.cos hy
    rw [hDy, hu, mul_zero, neg_zero]
  | tanh =>
    obtain ⟨c, -, -, -, hDy⟩ := C.hyperbolic.derivation_tan hy
    rw [hDy, hu, zero_div]
  | coth =>
    obtain ⟨s, -, -, hDy⟩ := C.hyperbolic.derivation_cot hy
    rw [hDy, hu, zero_div, neg_zero]
  | asinh =>
    obtain ⟨hsinh, r, hr, hcosh⟩ := C.asinh hy
    have hDr : D r = 0 := hsqrt hr (by rw [D.map_add, D.map_one_eq_zero, hsq, zero_add])
    exact C.hyperbolic.angle_constant hsinh hcosh hu hDr
  | acosh =>
    obtain ⟨hcosh, r, r', hr, hr', hsinh⟩ := C.acosh hy
    have hDr : D r = 0 := hsqrt hr (by rw [D.map_sub, D.map_one_eq_zero, hu, sub_zero])
    have hDr' : D r' = 0 := hsqrt hr' (by rw [D.map_add, D.map_one_eq_zero, hu, zero_add])
    have hproduct : D (r * r') = 0 := by
      rw [D.leibniz, hDr, hDr', smul_zero, smul_zero, add_zero]
    exact C.hyperbolic.angle_constant hsinh hcosh hproduct hu
  | atanh => rw [(C.derivation_atanh hy).2, hu, zero_div]
  | exp => rw [C.exp hy, hu, mul_zero]
  | log => rw [(C.log hy).2, hu, zero_div]
  | sqrt => exact hsqrt hy hu
  | abs =>
    refine derivation_eq_zero_of_sq ?_
    rw [C.abs hy, D.leibniz, hu, hconj, smul_zero, smul_zero, add_zero]
  | arg =>
    obtain ⟨-, hDy⟩ := C.derivation_arg hy
    rw [C.apply_im, hu, zero_div, map_zero, sub_zero, zero_div] at hDy
    exact (Option.some.inj hDy).symm
  | re =>
    obtain rfl := Option.some.inj ((C.apply_re u).symm.trans hy)
    rw [C.derivation_re, hu, map_zero, add_zero, zero_div]
  | im =>
    obtain rfl := Option.some.inj ((C.apply_im u).symm.trans hy)
    rw [C.derivation_im, hu, map_zero, sub_zero, zero_div]
  | conj =>
    obtain rfl := Option.some.inj ((C.apply_conj u).symm.trans hy)
    exact hconj
  | unknown => exact absurd rfl hf

/-- A power of a constant to a constant is a constant. -/
theorem pow_constant [CharZero K] (hp : I.pow u v = some p) (hu : u ≠ 0) (hDu : D u = 0)
    (hDv : D v = 0) : D p = 0 := by
  rw [C.derivation_pow_of_constant hp hu hDv, hDu, mul_zero]

end Calculus

end FractalFormula
