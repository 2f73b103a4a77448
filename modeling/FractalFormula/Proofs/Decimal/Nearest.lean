import FractalFormula.Decimal.Shortest
import FractalFormula.Proofs.Decimal.Bits

/-!
# Decimals near a binary64 number

A decimal in the interval of `m · 2 ^ k` units is rounded to exactly that number
(`toBits_of_readsAs`). The interval does not depend on how the decimal is written, so zeros may
be taken off its coefficient or put on, and every way in which `shortest` picks a decimal keeps
to the interval (`readsAs_shortest`).
-/

namespace FractalFormula.Decimal

open Binary64 (Canonical unit infinityBits)

/-! ### Rounding a quotient -/

/-- The quotient is at most a half away from `r`, and less than a half if `r` is odd. -/
structure RoundsTo (num den r : Nat) : Prop where
  low : 2 * (r * den) ≤ 2 * num + den ∧ (r % 2 = 1 → 2 * (r * den) < 2 * num + den)
  high : 2 * num ≤ 2 * (r * den) + den ∧ (r % 2 = 1 → 2 * num < 2 * (r * den) + den)

theorem roundsTo_roundDiv (num : Nat) {den : Nat} (hden : 0 < den) :
    RoundsTo num den (roundDiv num den) := by
  have hnum : den * (num / den) + num % den = num := Nat.div_add_mod num den
  have hrest : num % den < den := Nat.mod_lt num hden
  rw [Nat.mul_comm] at hnum
  simp only [roundDiv]
  generalize num / den = q at hnum ⊢
  generalize num % den = rest at hnum hrest ⊢
  have hnext : (q + 1) * den = q * den + den := Nat.succ_mul q den
  split
  · constructor <;> omega
  · split
    · constructor <;> omega
    · obtain heven | hodd := Nat.mod_two_eq_zero_or_one q
      · rw [heven, Nat.add_zero]
        constructor <;> omega
      · rw [hodd]
        constructor <;> omega

/-- Of two numbers that a quotient rounds to neither is below the other: neighbours at a half are
not both even. -/
theorem RoundsTo.le {num den r a : Nat} (hden : 0 < den) (h : RoundsTo num den r)
    (ha : RoundsTo num den a) : a ≤ r := by
  obtain ⟨-, hhigh⟩ := h
  obtain ⟨hlow, -⟩ := ha
  by_contra hlt
  obtain rfl | hgt : a = r + 1 ∨ r + 2 ≤ a := by omega
  · have hnext : (r + 1) * den = r * den + den := Nat.succ_mul r den
    omega
  · have hmul : (r + 2) * den ≤ a * den := Nat.mul_le_mul_right den hgt
    rw [Nat.add_mul] at hmul
    omega

theorem roundDiv_eq {num den r : Nat} (hden : 0 < den)
    (hlow : 2 * (r * den) ≤ 2 * num + den ∧ (r % 2 = 1 → 2 * (r * den) < 2 * num + den))
    (hhigh : 2 * num ≤ 2 * (r * den) + den ∧ (r % 2 = 1 → 2 * num < 2 * (r * den) + den)) :
    roundDiv num den = r := by
  have hround := roundsTo_roundDiv num hden
  have hr : RoundsTo num den r := ⟨hlow, hhigh⟩
  exact Nat.le_antisymm (hr.le hden hround) (hround.le hden hr)

/-! ### Powers -/

theorem tenUp_eq (e : Int) : tenUp e = 10 ^ e.toNat := rfl

theorem tenDown_eq (e : Int) : tenDown e = 10 ^ (-e).toNat := rfl

theorem tenDown_pos (e : Int) : 0 < tenDown e := Nat.pow_pos (by decide)

theorem gapBelow_eq (m k : Nat) :
    gapBelow m k = if m = 2 ^ 52 ∧ k ≠ 0 then 2 ^ k else 2 * 2 ^ k := by
  simp only [gapBelow, Nat.pow_eq]

theorem gapAbove_eq (k : Nat) : gapAbove k = 2 * 2 ^ k := rfl

/-- The exponent is a variable here, so that the power is not evaluated. -/
theorem unit_eq {u : Nat} (h : u = 1074) : unit = 2 ^ u := by
  delta unit
  rw [← h, Nat.pow_eq]

theorem two_pow_le_ten_pow (n : Nat) : 2 ^ (3 * n) ≤ 10 ^ n := by
  rw [Nat.pow_mul]
  exact Nat.pow_le_pow_left (by decide) n

/-! ### Intervals -/

/-- The quotient lies in the interval of the quotients that are rounded to `m · 2 ^ k`, whose ends
belong to it if `m` is even. -/
structure Within (m k num den : Nat) : Prop where
  low : (4 * (m * 2 ^ k) - gapBelow m k) * den ≤ 4 * num
  high : 4 * num ≤ (4 * (m * 2 ^ k) + gapAbove k) * den
  odd : m % 2 = 1 → (4 * (m * 2 ^ k) - gapBelow m k) * den < 4 * num ∧
    4 * num < (4 * (m * 2 ^ k) + gapAbove k) * den

theorem readsAs_iff {m k : Nat} {d : Decimal} :
    readsAs m k d = true ↔
      Within m k (d.coefficient * unit * tenUp d.exponent) (tenDown d.exponent) := by
  rw [Nat.mul_right_comm d.coefficient unit]
  simp only [readsAs]
  split
  · next heven =>
    simp only [Bool.and_eq_true, decide_eq_true_eq]
    exact ⟨fun h => ⟨h.1, h.2, fun hodd => by omega⟩, fun h => ⟨h.low, h.high⟩⟩
  · next hodd =>
    simp only [Bool.and_eq_true, decide_eq_true_eq]
    exact ⟨fun h => ⟨Nat.le_of_lt h.1, Nat.le_of_lt h.2, fun _ => h⟩, fun h => h.odd (by omega)⟩

/-- The upper end is half a last place above the number. -/
theorem Within.above {m k num den : Nat} (h : Within m k num den) :
    2 * num ≤ 2 * (m * (den * 2 ^ k)) + den * 2 ^ k ∧
      (m % 2 = 1 → 2 * num < 2 * (m * (den * 2 ^ k)) + den * 2 ^ k) := by
  have hend : (4 * (m * 2 ^ k) + gapAbove k) * den =
      2 * (2 * (m * (den * 2 ^ k)) + den * 2 ^ k) := by
    simp only [gapAbove_eq, Nat.add_mul, Nat.mul_assoc, Nat.mul_comm (2 ^ k) den]
    omega
  have hhigh := h.high
  have hodd := fun hm => (h.odd hm).2
  rw [hend] at hhigh hodd
  omega

/-- The lower end is half a last place below the number, unless it is a power of two. -/
theorem Within.below {m k num den : Nat} (h : Within m k num den) (hne : m ≠ 2 ^ 52 ∨ k = 0) :
    2 * (m * (den * 2 ^ k)) ≤ 2 * num + den * 2 ^ k ∧
      (m % 2 = 1 → 2 * (m * (den * 2 ^ k)) < 2 * num + den * 2 ^ k) := by
  have hgap : gapBelow m k = 2 * 2 ^ k := by
    rw [gapBelow_eq, if_neg]
    omega
  have hend : (4 * (m * 2 ^ k) - gapBelow m k) * den =
      2 * (2 * (m * (den * 2 ^ k)) - den * 2 ^ k) := by
    simp only [hgap, Nat.sub_mul, Nat.mul_assoc, Nat.mul_comm (2 ^ k) den]
    omega
  have hlow := h.low
  have hodd := fun hm => (h.odd hm).1
  rw [hend] at hlow hodd
  omega

/-! ### Rounding to binary64 -/

/-- The scale of a quotient below `2 ^ 53` is zero. -/
theorem scale_eq_zero {num den : Nat} (hden : 0 < den) (h : num < 2 ^ 53 * den) :
    (num / den).log2 - 52 = 0 := by
  by_cases hz : num / den = 0
  · rw [hz]
    decide
  · have hlog := (Nat.log2_lt hz).mpr ((Nat.div_lt_iff_lt_mul hden).mpr h)
    omega

/-- The scale `k` makes a significand of 53 bits. -/
theorem scale_eq {num den k : Nat} (hden : 0 < den) (hlow : 2 ^ 52 * (den * 2 ^ k) ≤ num)
    (hhigh : num < 2 ^ 53 * (den * 2 ^ k)) : (num / den).log2 - 52 = k := by
  have hlow : 2 ^ (52 + k) ≤ num / den := by
    rw [Nat.le_div_iff_mul_le hden, Nat.pow_add, Nat.mul_assoc, Nat.mul_comm (2 ^ k)]
    exact hlow
  have hhigh : num / den < 2 ^ (52 + k + 1) := by
    rw [Nat.div_lt_iff_lt_mul hden, show 52 + k + 1 = 53 + k by omega, Nat.pow_add, Nat.mul_assoc,
      Nat.mul_comm (2 ^ k)]
    exact hhigh
  have hne : num / den ≠ 0 := by
    have := Nat.two_pow_pos (52 + k)
    omega
  rw [(Nat.log2_eq_iff hne).mpr ⟨hlow, hhigh⟩]
  omega

theorem nearestBits_eq {num den k m : Nat} (hscale : (num / den).log2 - 52 = k)
    (hround : roundDiv num (den * 2 ^ k) = m) (hlt : k * 2 ^ 52 + m < infinityBits) :
    nearestBits num den = k * 2 ^ 52 + m := by
  simp only [nearestBits, Nat.pow_eq, hscale, hround]
  omega

/-- A quotient in the interval of a number is rounded to the number. Just below a power of two the
scale is one less, and rounding carries. -/
theorem nearestBits_of_within {m k num den : Nat} (hcan : Canonical m k) (hden : 0 < den)
    (h : Within m k num den) : nearestBits num den = k * 2 ^ 52 + m := by
  have hinf := hcan.lt_infinityBits
  have hu : 0 < den * 2 ^ k := Nat.mul_pos hden (Nat.two_pow_pos k)
  by_cases hbelow : k ≠ 0 ∧ num < 2 ^ 52 * (den * 2 ^ k)
  · obtain ⟨hk, hlt⟩ := hbelow
    obtain ⟨j, rfl⟩ : ∃ j, k = j + 1 := ⟨k - 1, by omega⟩
    have hm : m = 2 ^ 52 := by
      refine Decidable.byContradiction fun hne => ?_
      have hmin : (2 ^ 52 + 1) * (den * 2 ^ (j + 1)) ≤ m * (den * 2 ^ (j + 1)) := by
        refine Nat.mul_le_mul_right _ ?_
        simp only [Canonical] at hcan
        omega
      have hlow := (h.below (Or.inl hne)).1
      omega
    subst hm
    have hgap : gapBelow (2 ^ 52) (j + 1) = 2 ^ (j + 1) := if_pos ⟨rfl, hk⟩
    have hdouble : den * 2 ^ (j + 1) = 2 * (den * 2 ^ j) := by
      rw [Nat.pow_succ, Nat.mul_comm (2 ^ j), Nat.mul_left_comm]
    have hlow := h.low
    rw [hgap, Nat.sub_mul, Nat.mul_comm (2 ^ (j + 1)) den, Nat.mul_assoc, Nat.mul_assoc,
      Nat.mul_comm (2 ^ (j + 1)) den, hdouble] at hlow
    rw [hdouble] at hlt hu
    have hround : roundDiv num (den * 2 ^ j) = 2 ^ 53 :=
      roundDiv_eq (by omega) (by omega) (by omega)
    have hcarry : (j + 1) * 2 ^ 52 + 2 ^ 52 = j * 2 ^ 52 + 2 ^ 53 := by omega
    rw [hcarry] at hinf ⊢
    exact nearestBits_eq (scale_eq hden (by omega) (by omega)) hround hinf
  · have habove := h.above
    have hmax : m * (den * 2 ^ k) ≤ (2 ^ 53 - 1) * (den * 2 ^ k) := by
      refine Nat.mul_le_mul_right _ ?_
      simp only [Canonical] at hcan
      omega
    have hlow : 2 * (m * (den * 2 ^ k)) ≤ 2 * num + den * 2 ^ k ∧
        (m % 2 = 1 → 2 * (m * (den * 2 ^ k)) < 2 * num + den * 2 ^ k) := by
      by_cases hm : m = 2 ^ 52 ∧ k ≠ 0
      · obtain ⟨rfl, hk⟩ := hm
        omega
      · exact h.below (by omega)
    have hscale : (num / den).log2 - 52 = k := by
      by_cases hk : k = 0
      · subst hk
        rw [Nat.pow_zero, Nat.mul_one] at habove hmax
        exact scale_eq_zero hden (by omega)
      · exact scale_eq hden (by omega) (by omega)
    exact nearestBits_eq hscale (roundDiv_eq hu hlow habove) hinf

/-! ### Decimals in an interval -/

/-- A number is not so small that its interval reaches down to zero. -/
theorem Within.den_le {m k num den : Nat} (h : Within m k num den) (hm : m ≠ 0) :
    den ≤ 2 * num := by
  have hone := Nat.two_pow_pos k
  have hmul : 1 * 2 ^ k ≤ m * 2 ^ k := Nat.mul_le_mul_right _ (by omega)
  have hgap : gapBelow m k ≤ 2 * 2 ^ k := by
    simp only [gapBelow_eq]
    split <;> omega
  have hlow := Nat.mul_le_mul_right den (show 2 ≤ 4 * (m * 2 ^ k) - gapBelow m k by omega)
  have := h.low
  omega

/-- Exponents beyond the range are not met in an interval. -/
theorem exponent_le_of_within {m k : Nat} {d : Decimal} (hcan : Canonical m k)
    (hc : d.coefficient ≠ 0)
    (h : Within m k (d.coefficient * unit * tenUp d.exponent) (tenDown d.exponent)) :
    d.exponent ≤ 400 := by
  refine Int.not_lt.mp fun hlarge => ?_
  -- The powers of two are kept as variables, so that none is evaluated.
  obtain ⟨a, ha⟩ : ∃ a, a = 1203 := ⟨_, rfl⟩
  obtain ⟨u, hu⟩ : ∃ u, u = 1074 := ⟨_, rfl⟩
  have hdown : tenDown d.exponent = 1 := by
    rw [tenDown_eq, show (-d.exponent).toNat = 0 by omega, Nat.pow_zero]
  have hup : 2 ^ a ≤ tenUp d.exponent :=
    Nat.le_trans (Nat.pow_le_pow_right (by decide) (show a ≤ 3 * d.exponent.toNat by omega))
      (two_pow_le_ten_pow _)
  have hnum : 2 ^ u * 2 ^ a ≤ d.coefficient * unit * tenUp d.exponent := by
    rw [unit_eq hu]
    exact Nat.mul_le_mul (Nat.le_mul_of_pos_left _ (Nat.pos_of_ne_zero hc)) hup
  have hrange : 2 ^ 55 * 2 ^ k ≤ 2 ^ u * 2 ^ a := by
    rw [← Nat.pow_add, ← Nat.pow_add]
    refine Nat.pow_le_pow_right (by decide) ?_
    simp only [Canonical] at hcan
    omega
  have hm : m * (1 * 2 ^ k) ≤ 2 ^ 53 * (1 * 2 ^ k) := by
    refine Nat.mul_le_mul_right _ ?_
    simp only [Canonical] at hcan
    omega
  have habove := h.above.1
  have hpos := Nat.two_pow_pos k
  rw [hdown] at habove
  omega

theorem order_ge_of_within {m k : Nat} {d : Decimal} (hm : m ≠ 0)
    (h : Within m k (d.coefficient * unit * tenUp d.exponent) (tenDown d.exponent)) :
    -400 ≤ d.exponent + d.coefficient.log2 := by
  refine Int.not_lt.mp fun hsmall => ?_
  obtain ⟨u, hu⟩ : ∃ u, u = 1074 := ⟨_, rfl⟩
  have hup : tenUp d.exponent = 1 := by
    rw [tenUp_eq, show d.exponent.toNat = 0 by omega, Nat.pow_zero]
  have hdown : 2 ^ (3 * (-d.exponent).toNat) ≤ tenDown d.exponent := two_pow_le_ten_pow _
  have hnum : d.coefficient * unit ≤ 2 ^ (d.coefficient.log2 + 1) * 2 ^ u := by
    rw [unit_eq hu]
    exact Nat.mul_le_mul_right _ (Nat.le_of_lt Nat.lt_log2_self)
  have hrange : 2 ^ 2 * (2 ^ (d.coefficient.log2 + 1) * 2 ^ u) ≤ 2 ^ (3 * (-d.exponent).toNat) := by
    rw [← Nat.pow_add, ← Nat.pow_add]
    exact Nat.pow_le_pow_right (by decide) (by omega)
  have hpos : 0 < 2 ^ (d.coefficient.log2 + 1) * 2 ^ u :=
    Nat.mul_pos (Nat.two_pow_pos _) (Nat.two_pow_pos _)
  have hle := h.den_le hm
  rw [hup, Nat.mul_one] at hle
  omega

/-- A decimal in the interval of a number is read as that number. -/
theorem toBits_of_readsAs {m k : Nat} {d : Decimal} (hcan : Canonical m k) (hm : m ≠ 0)
    (h : readsAs m k d) : d.toBits = k * 2 ^ 52 + m := by
  have h := readsAs_iff.mp h
  have hc : d.coefficient ≠ 0 := by
    intro hz
    have hle := h.den_le hm
    have hpos := tenDown_pos d.exponent
    rw [hz, Nat.zero_mul, Nat.zero_mul] at hle
    omega
  have hlarge := exponent_le_of_within hcan hc h
  have hsmall := order_ge_of_within hm h
  rw [toBits, if_neg hc, if_neg (by omega), if_neg (by omega)]
  exact nearestBits_of_within hcan (tenDown_pos _) h

/-! ### Other ways to write a decimal -/

theorem ratio_le_iff {num den num' den' : Nat} (a : Nat) (hden : 0 < den) (hden' : 0 < den')
    (heq : num * den' = num' * den) :
    (a * den ≤ 4 * num ↔ a * den' ≤ 4 * num') ∧ (4 * num ≤ a * den ↔ 4 * num' ≤ a * den') := by
  have hnum : 4 * num * den' = 4 * num' * den := by rw [Nat.mul_assoc, heq, Nat.mul_assoc]
  have hends : a * den * den' = a * den' * den := Nat.mul_right_comm a den den'
  constructor
  · rw [← Nat.mul_le_mul_right_iff hden', hends, hnum, Nat.mul_le_mul_right_iff hden]
  · rw [← Nat.mul_le_mul_right_iff hden', hends, hnum, Nat.mul_le_mul_right_iff hden]

/-- The interval belongs to the quotient, not to the fraction. -/
theorem Within.of_mul_eq {m k num den num' den' : Nat} (h : Within m k num den) (hden : 0 < den)
    (hden' : 0 < den') (heq : num * den' = num' * den) : Within m k num' den' := by
  have hiff := fun a => ratio_le_iff a hden hden' heq
  refine ⟨(hiff _).1.mp h.low, (hiff _).2.mp h.high, fun hm => ?_⟩
  obtain ⟨hlow, hhigh⟩ := h.odd hm
  exact ⟨Nat.not_le.mp fun hle => Nat.not_le.mpr hlow ((hiff _).2.mpr hle),
    Nat.not_le.mp fun hle => Nat.not_le.mpr hhigh ((hiff _).1.mpr hle)⟩

theorem shift_mul_eq (c j : Nat) (e : Int) :
    c * unit * tenUp e * tenDown (e - j) = c * 10 ^ j * unit * tenUp (e - j) * tenDown e := by
  have hpow : tenUp e * tenDown (e - j) = 10 ^ j * (tenUp (e - j) * tenDown e) := by
    simp only [tenUp_eq, tenDown_eq, ← Nat.pow_add]
    congr 1
    omega
  rw [Nat.mul_assoc (c * unit), hpow]
  generalize unit = u
  ac_rfl

/-- Zeros put on the end of the coefficient, with the exponent lowered by as many, keep the
decimal in its interval. -/
theorem readsAs_shift (m k c j : Nat) (e : Int) :
    readsAs m k ⟨c * 10 ^ j, e - j⟩ = true ↔ readsAs m k ⟨c, e⟩ = true := by
  rw [readsAs_iff, readsAs_iff]
  have h := shift_mul_eq c j e
  exact ⟨fun hw => hw.of_mul_eq (tenDown_pos _) (tenDown_pos _) h.symm,
    fun hw => hw.of_mul_eq (tenDown_pos _) (tenDown_pos _) h⟩

theorem readsAs_trimWithin {m k : Nat} (n : Nat) (d : Decimal) :
    readsAs m k (trimWithin n d) = true ↔ readsAs m k d = true := by
  induction n generalizing d with
  | zero => rfl
  | succ n ih =>
    obtain ⟨c, e⟩ := d
    rw [trimWithin]
    split
    · next hzero =>
      have hshift := readsAs_shift m k (c / 10) 1 (e + 1)
      have hc : c / 10 * 10 ^ 1 = c := by
        simp only at hzero
        omega
      have he : e + 1 - (1 : Nat) = e := by omega
      rw [hc, he] at hshift
      exact (ih _).trans hshift.symm
    · rfl

theorem readsAs_trim {m k : Nat} {d : Decimal} (hm : m ≠ 0) (h : readsAs m k d) :
    readsAs m k d.trim := by
  rw [trim, if_neg]
  · exact (readsAs_trimWithin _ d).mpr h
  · intro hz
    have hle := (readsAs_iff.mp h).den_le hm
    have hpos := tenDown_pos d.exponent
    rw [hz, Nat.zero_mul, Nat.zero_mul] at hle
    omega

/-! ### The shortest decimal -/

theorem readsAs_of_nearestOnGrid {m k : Nat} {e : Int} {d : Decimal}
    (h : nearestOnGrid m k e = some d) : readsAs m k d := by
  simp only [nearestOnGrid] at h
  split at h
  · next hbelow habove =>
    split at h <;> obtain rfl := Option.some.inj h
    · exact hbelow
    · exact habove
  · next hbelow _ =>
    obtain rfl := Option.some.inj h
    exact hbelow
  · next _ habove =>
    obtain rfl := Option.some.inj h
    exact habove
  · exact absurd h (by simp)

/-- A number lies in its own interval. -/
theorem within_self {m k den : Nat} (hm : m ≠ 0) (hden : 0 < den) :
    Within m k (m * 2 ^ k * den) den := by
  have hlow : (4 * (m * 2 ^ k) - gapBelow m k) * den < 4 * (m * 2 ^ k * den) := by
    rw [← Nat.mul_assoc 4 (m * 2 ^ k) den]
    refine Nat.mul_lt_mul_of_pos_right ?_ hden
    have hone := Nat.two_pow_pos k
    have hmul : 1 * 2 ^ k ≤ m * 2 ^ k := Nat.mul_le_mul_right _ (by omega)
    have hgap : 0 < gapBelow m k := by
      simp only [gapBelow_eq]
      split <;> omega
    omega
  have hhigh : 4 * (m * 2 ^ k * den) < (4 * (m * 2 ^ k) + gapAbove k) * den := by
    rw [← Nat.mul_assoc 4 (m * 2 ^ k) den]
    refine Nat.mul_lt_mul_of_pos_right ?_ hden
    have hone := Nat.two_pow_pos k
    simp only [gapAbove_eq]
    omega
  exact ⟨Nat.le_of_lt hlow, Nat.le_of_lt hhigh, fun _ => ⟨hlow, hhigh⟩⟩

theorem readsAs_exact {m k : Nat} (hm : m ≠ 0) : readsAs m k (exact m k) := by
  rw [readsAs_iff]
  obtain ⟨u, hu⟩ : ∃ u, u = 1074 := ⟨_, rfl⟩
  have hup : tenUp (-1074) = 1 := rfl
  have hdown : tenDown (-1074) = 10 ^ u := by
    rw [tenDown_eq, show (-(-1074 : Int)).toNat = u by omega]
  have hten : 5 ^ u * unit = 10 ^ u := by
    rw [unit_eq hu, ← Nat.mul_pow]
  simp only [exact, hup, hdown, Nat.mul_one]
  rw [← hu, Nat.pow_eq, Nat.pow_eq, Nat.mul_assoc, hten]
  exact within_self hm (Nat.pow_pos (by decide))

theorem readsAs_shortest {m k : Nat} (hm : m ≠ 0) : readsAs m k (shortest m k) := by
  refine readsAs_trim hm ?_
  cases hfind : (List.range 17).findSome? fun (i : Nat) =>
      nearestOnGrid m k (magnitudeOrder (m * 2 ^ k) - 1 - i) with
  | none => exact readsAs_exact hm
  | some d =>
    obtain ⟨i, -, hi⟩ := List.exists_of_findSome?_eq_some hfind
    exact readsAs_of_nearestOnGrid hi

end FractalFormula.Decimal
