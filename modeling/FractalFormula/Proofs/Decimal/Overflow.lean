import FractalFormula.Proofs.Decimal.Nearest

/-!
# Decimals beyond binary64

Rounding to the nearest number of unbounded scale, a decimal would become `2 ^ 1024` from half a
unit in the last place below it on, since the tie goes to the even significand. These are the
decimals that are read as infinity (`toBits_lt_infinityBits_iff`).
-/

namespace FractalFormula.Decimal

open Binary64 (unit infinityBits)

/-- The number that is written. -/
def value (d : Decimal) : ℚ := d.coefficient * 10 ^ d.exponent

/-- The least number that is not rounded to a finite one: half a unit in the last place above the
greatest finite number. -/
def overflowLimit : ℚ := (2 ^ 54 - 1) * 2 ^ 970

/-! ### Rounding at a power of two -/

/-- A quotient is rounded to less than an even number if it is more than a half below it. -/
theorem roundDiv_lt_iff {num den a : Nat} (hden : 0 < den) (ha : a % 2 = 0) :
    roundDiv num den < a ↔ 2 * num + den < 2 * (a * den) := by
  obtain ⟨hlow, hhigh⟩ := roundsTo_roundDiv num hden
  generalize roundDiv num den = r at hlow hhigh ⊢
  constructor
  · intro hlt
    obtain rfl | hgt : a = r + 1 ∨ r + 2 ≤ a := by omega
    · have hnext : (r + 1) * den = r * den + den := Nat.succ_mul r den
      omega
    · have hmul : (r + 2) * den ≤ a * den := Nat.mul_le_mul_right den hgt
      rw [Nat.add_mul] at hmul
      omega
  · intro hlt
    by_contra hge
    have hmul : a * den ≤ r * den := Nat.mul_le_mul_right den (Nat.le_of_not_lt hge)
    omega

theorem le_roundDiv {num den a : Nat} (hden : 0 < den) (h : a * den ≤ num) :
    a ≤ roundDiv num den := by
  obtain ⟨-, hhigh⟩ := roundsTo_roundDiv num hden
  by_contra hlt
  have hmul : (roundDiv num den + 1) * den ≤ a * den := Nat.mul_le_mul_right den (by omega)
  rw [Nat.succ_mul] at hmul
  omega

/-- The scale makes a significand of at most 53 bits, and of exactly 53 bits unless it is zero. -/
theorem scale_bounds {num den k : Nat} (hden : 0 < den) (hk : (num / den).log2 - 52 = k) :
    num < 2 ^ 53 * (den * 2 ^ k) ∧ (k ≠ 0 → 2 ^ 52 * (den * 2 ^ k) ≤ num) := by
  constructor
  · have hlt : num / den < 2 ^ (53 + k) := by
      refine Nat.lt_of_lt_of_le Nat.lt_log2_self (Nat.pow_le_pow_right (by decide) ?_)
      omega
    rw [Nat.mul_left_comm, ← Nat.pow_add, Nat.mul_comm]
    exact (Nat.div_lt_iff_lt_mul hden).mp hlt
  · intro hne
    have hpos : num / den ≠ 0 := by
      intro hzero
      rw [hzero] at hk
      exact hne hk.symm
    have hle : 2 ^ (52 + k) ≤ num / den := by
      rw [show 52 + k = (num / den).log2 by omega]
      exact Nat.log2_self_le hpos
    rw [Nat.mul_left_comm, ← Nat.pow_add, Nat.mul_comm]
    exact (Nat.le_div_iff_mul_le hden).mp hle

/-- Only a quotient close to `2 ^ 53` units of the last scale, or beyond, is rounded to infinity. -/
theorem nearestBits_lt_iff {num den top : Nat} (hden : 0 < den) (htop : top = 2045) :
    nearestBits num den < infinityBits ↔
      2 * num + den * 2 ^ top < 2 * (2 ^ 53 * (den * 2 ^ top)) := by
  have hinf : infinityBits = 2047 * 2 ^ 52 := rfl
  obtain ⟨k, hk⟩ : ∃ k, (num / den).log2 - 52 = k := ⟨_, rfl⟩
  obtain ⟨hbelow, habove⟩ := scale_bounds hden hk
  have hscaled : 0 < den * 2 ^ k := Nat.mul_pos hden (Nat.two_pow_pos k)
  simp only [nearestBits, Nat.pow_eq, hk, hinf]
  obtain hlt | rfl | hgt : k < top ∨ k = top ∨ top < k := by omega
  · have hround : roundDiv num (den * 2 ^ k) < 2 ^ 53 + 2 :=
      (roundDiv_lt_iff hscaled (by decide)).mpr (by omega)
    have hdouble : den * 2 ^ k * 2 ≤ den * 2 ^ top := by
      rw [Nat.mul_assoc, ← Nat.pow_succ]
      exact Nat.mul_le_mul_left den (Nat.pow_le_pow_right (by decide) hlt)
    refine iff_of_true ?_ ?_ <;> omega
  · have hround : roundDiv num (den * 2 ^ k) < 2 ^ 53 ↔ _ :=
      roundDiv_lt_iff hscaled (by decide)
    omega
  · have hround : 2 ^ 52 ≤ roundDiv num (den * 2 ^ k) :=
      le_roundDiv hscaled (habove (by omega))
    have hdouble : den * 2 ^ top * 2 ≤ den * 2 ^ k := by
      rw [Nat.mul_assoc, ← Nat.pow_succ]
      exact Nat.mul_le_mul_left den (Nat.pow_le_pow_right (by decide) hgt)
    have hlarge := habove (by omega)
    refine iff_of_false ?_ ?_ <;> omega

/-! ### The limit -/

theorem ten_zpow (e : Int) : (10 : ℚ) ^ e = tenUp e / tenDown e := by
  have hten : (10 : ℚ) ≠ 0 := by norm_num
  calc (10 : ℚ) ^ e = 10 ^ ((e.toNat : Int) - ((-e).toNat : Int)) := by
        rw [Int.toNat_sub_toNat_neg]
    _ = tenUp e / tenDown e := by
        rw [zpow_sub₀ hten, zpow_natCast, zpow_natCast, tenUp_eq, tenDown_eq]
        push_cast
        rfl

/-- The limit in whole numbers. -/
theorem value_lt_overflowLimit_iff (d : Decimal) {u : Nat} (hu : u = 970) :
    d.value < overflowLimit ↔
      d.coefficient * tenUp d.exponent < (2 ^ 54 - 1) * 2 ^ u * tenDown d.exponent := by
  have hdown : (0 : ℚ) < tenDown d.exponent := by exact_mod_cast tenDown_pos d.exponent
  have hlimit : overflowLimit = (((2 ^ 54 - 1) * 2 ^ u : Nat) : ℚ) := by
    rw [overflowLimit, ← hu]
    push_cast
    norm_num
  rw [value, ten_zpow, hlimit, ← mul_div_assoc, div_lt_iff₀ hdown]
  exact_mod_cast Iff.rfl

theorem not_lt_overflowLimit_of_large {d : Decimal} (hc : d.coefficient ≠ 0)
    (he : 400 < d.exponent) : ¬d.value < overflowLimit := by
  obtain ⟨u, hu⟩ : ∃ u, u = 970 := ⟨_, rfl⟩
  have hone : tenDown d.exponent = 1 := by
    rw [tenDown_eq, show (-d.exponent).toNat = 0 by omega, Nat.pow_zero]
  have hup : 2 ^ (54 + u) ≤ tenUp d.exponent :=
    Nat.le_trans (Nat.pow_le_pow_right (by decide) (by omega)) (two_pow_le_ten_pow _)
  have hmul : 1 * 2 ^ (54 + u) ≤ d.coefficient * tenUp d.exponent :=
    Nat.mul_le_mul (Nat.pos_of_ne_zero hc) hup
  have hpow := Nat.two_pow_pos u
  rw [Nat.pow_add] at hmul
  rw [value_lt_overflowLimit_iff d hu, hone]
  omega

theorem lt_overflowLimit_of_small {d : Decimal} (he : d.exponent + d.coefficient.log2 < -400) :
    d.value < overflowLimit := by
  obtain ⟨u, hu⟩ : ∃ u, u = 970 := ⟨_, rfl⟩
  have hone : tenUp d.exponent = 1 := by
    rw [tenUp_eq, show d.exponent.toNat = 0 by omega, Nat.pow_zero]
  have hten : 2 ^ (d.coefficient.log2 + 1) ≤ tenDown d.exponent :=
    Nat.le_trans (Nat.pow_le_pow_right (by decide) (by omega)) (two_pow_le_ten_pow _)
  have hlog : d.coefficient < 2 ^ (d.coefficient.log2 + 1) := Nat.lt_log2_self
  have hmul : 1 * tenDown d.exponent ≤ (2 ^ 54 - 1) * 2 ^ u * tenDown d.exponent :=
    Nat.mul_le_mul_right _ (Nat.mul_pos (by decide) (Nat.two_pow_pos u))
  rw [value_lt_overflowLimit_iff d hu, hone]
  omega

theorem nearestBits_lt_iff_value (d : Decimal) :
    nearestBits (d.coefficient * unit * tenUp d.exponent) (tenDown d.exponent) < infinityBits ↔
      d.value < overflowLimit := by
  -- The exponents of two are kept as variables, so that no power is evaluated.
  obtain ⟨u, hu⟩ : ∃ u, u = 970 := ⟨_, rfl⟩
  obtain ⟨v, hv⟩ : ∃ v, v = 1074 := ⟨_, rfl⟩
  have hnum : d.coefficient * 2 ^ v * tenUp d.exponent =
      d.coefficient * tenUp d.exponent * 2 ^ v := Nat.mul_right_comm _ _ _
  have hstep : tenDown d.exponent * 2 ^ (u + 1 + v) =
      2 * (2 ^ u * tenDown d.exponent * 2 ^ v) := by
    rw [Nat.pow_add, Nat.pow_succ]
    ring
  rw [nearestBits_lt_iff (tenDown_pos _) (show u + 1 + v = 2045 by omega), unit_eq hv,
    value_lt_overflowLimit_iff d hu, hnum, hstep, Nat.mul_assoc (2 ^ 54 - 1)]
  generalize d.coefficient * tenUp d.exponent = a
  generalize 2 ^ u * tenDown d.exponent = b
  have hcancel : a * 2 ^ v < (2 ^ 54 - 1) * b * 2 ^ v ↔ a < (2 ^ 54 - 1) * b :=
    Nat.mul_lt_mul_right (Nat.two_pow_pos v)
  rw [← hcancel, Nat.mul_assoc (2 ^ 54 - 1)]
  omega

/-- A decimal is read as a finite number exactly when it is below the limit. -/
theorem toBits_lt_infinityBits_iff (d : Decimal) :
    d.toBits < infinityBits ↔ d.value < overflowLimit := by
  have hinf : 0 < infinityBits := by decide
  have hlimit : 0 < overflowLimit := by norm_num [overflowLimit]
  rw [toBits]
  split
  · next hc =>
    have hzero : d.value = 0 := by rw [value, hc, Nat.cast_zero, zero_mul]
    rw [hzero]
    exact iff_of_true hinf hlimit
  · next hc =>
    split
    · next he => exact iff_of_false (Nat.lt_irrefl _) (not_lt_overflowLimit_of_large hc he)
    · split
      · next he => exact iff_of_true hinf (lt_overflowLimit_of_small he)
      · exact nearestBits_lt_iff_value d

end FractalFormula.Decimal
