import FractalFormula.Proofs.Decimal.Sign

/-!
# Whole numbers as binary64 numbers

Whole numbers are turned into binary64 numbers by rounding, small ones in two steps. Rounding keeps
a number of the normal range in it (`pack_roundWithAccuracy`), so an integer of 64 bits keeps its
sign, and a positive one becomes a finite number, whatever is lost of it (`zero_lt_ofInt_iff`).
-/

namespace FractalFormula.Binary64

open Float.Model (Format totalExponent)
open Float.Model.UnpackedFloat

/-- A number with the sign bit is not above zero. -/
theorem not_zero_lt {x : Float} (hx : 2 ^ 63 ≤ x.toBits.toNat) : ¬0.0 < x := by
  intro hlt
  have hlt : ((0.0 : Float).toModel.unpack.compare x.toModel.unpack == some .lt) = true :=
    of_decide_eq_true hlt
  have h64 := x.toBits.toNat_lt
  rw [unpack_zero] at hlt
  have h : Unpacks x.toBits.toNat x.toModel.unpack := unpacks x.toBits.toBitVec
  generalize x.toModel.unpack = u at h hlt
  rcases h with _ | ⟨s, m, e, hm, -, -, hs⟩ | ⟨s, -, hs⟩ | _
  · simp [Float.Model.UnpackedFloat.compare] at hlt
  · cases s with
    | positive =>
      have := hs.mp rfl
      omega
    | negative => simp [Float.Model.UnpackedFloat.compare] at hlt
  · cases s with
    | positive =>
      have := hs.mp rfl
      omega
    | negative => simp [Float.Model.UnpackedFloat.compare] at hlt
  · simp [Float.Model.UnpackedFloat.compare] at hlt

/-! ### Rounding -/

theorem log2_shiftLeft {n : Nat} (hn : n ≠ 0) (k : Nat) : (n <<< k).log2 = n.log2 + k := by
  have hpos : 0 < 2 ^ k := Nat.two_pow_pos k
  rw [Nat.shiftLeft_eq, Nat.log2_eq_iff (Nat.mul_ne_zero hn (Nat.ne_of_gt hpos)), Nat.pow_add,
    show n.log2 + k + 1 = n.log2 + 1 + k by omega, Nat.pow_add]
  exact ⟨Nat.mul_le_mul_right _ (Nat.log2_self_le hn),
    Nat.mul_lt_mul_of_pos_right Nat.lt_log2_self hpos⟩

theorem mantissa_shiftRight (em : ExtendedMantissa) (k : Nat) :
    (em >>> k).mantissa = em.mantissa / 2 ^ k := by
  show (Nat.repeat ExtendedMantissa.shiftRightOne k em).mantissa = _
  induction k with
  | zero => simp [Nat.repeat]
  | succ k ih =>
    rw [Nat.repeat, ExtendedMantissa.shiftRightOne, ih, Nat.div_div_eq_div_mul, Nat.pow_succ]

/-- A significand of at least 53 bits in the normal range is shortened to 53 bits. -/
theorem shiftToTargetExponent_eq {m : Nat} {e : Int} (hm : 52 ≤ m.log2) (he : -1022 ≤ m.log2 + e) :
    (shiftToTargetExponent Format.binary64 m e .exact).1.mantissa = m / 2 ^ (m.log2 - 52) ∧
      (shiftToTargetExponent Format.binary64 m e .exact).2 = m.log2 + e - 52 := by
  have htarget : Format.binary64.targetExponent (totalExponent m e) =
      max ((m.log2 : Int) + 1 + e - 53) (-1074) := rfl
  have hshift : (Format.binary64.targetExponent (totalExponent m e) - e).toNat = m.log2 - 52 := by
    omega
  rw [shiftToTargetExponent, shiftToExponent, hshift]
  refine ⟨mantissa_shiftRight _ _, ?_⟩
  simp only
  omega

/-- A number shortened to 53 bits has them. -/
theorem bounds_of_shortened {m : Nat} (hm : 52 ≤ m.log2) :
    2 ^ 52 ≤ m / 2 ^ (m.log2 - 52) ∧ m / 2 ^ (m.log2 - 52) < 2 ^ 53 := by
  have hne : m ≠ 0 := by
    rintro rfl
    simp at hm
  have hpos : 0 < 2 ^ (m.log2 - 52) := Nat.two_pow_pos _
  rw [Nat.le_div_iff_mul_le hpos, Nat.div_lt_iff_lt_mul hpos, ← Nat.pow_add, ← Nat.pow_add]
  refine ⟨?_, ?_⟩
  · rw [show 52 + (m.log2 - 52) = m.log2 by omega]
    exact Nat.log2_self_le hne
  · rw [show 53 + (m.log2 - 52) = m.log2 + 1 by omega]
    exact Nat.lt_log2_self

theorem roundToNearestEven_bounds (m : Nat) (a : Accuracy) :
    m ≤ a.roundToNearestEven m ∧ a.roundToNearestEven m ≤ m + 1 := by
  rcases a with _ | (_ | _ | _) <;> simp only [Accuracy.roundToNearestEven] <;> omega

/-- A positive number of the normal range is rounded to one whose significand has 53 bits; where
rounding carries, it lies in the next power of two. -/
theorem roundWithAccuracy_eq {m : Nat} {e : Int} (hm : 52 ≤ m.log2) (he : -1022 ≤ m.log2 + e) :
    ∃ m' e' h, roundWithAccuracy Format.binary64 .positive m e .exact = .finite .positive m' e' h ∧
      m'.log2 = 52 ∧ (e' = m.log2 + e - 52 ∨ e' = m.log2 + e - 51) := by
  obtain ⟨hmantissa, hexponent⟩ := shiftToTargetExponent_eq hm he
  obtain ⟨hlow, hhigh⟩ := bounds_of_shortened hm
  rw [roundWithAccuracy]
  generalize hfirst : shiftToTargetExponent Format.binary64 m e .exact = first
    at hmantissa hexponent
  obtain ⟨em, e₁⟩ := first
  simp only at hmantissa hexponent ⊢
  obtain ⟨hle, hlt⟩ := roundToNearestEven_bounds em.mantissa em.accuracy
  rw [← hmantissa] at hlow hhigh
  have hrounded : em.roundedMantissa = em.accuracy.roundToNearestEven em.mantissa := rfl
  rw [← hrounded] at hle hlt
  generalize em.roundedMantissa = r at hle hlt ⊢
  have hlog : r.log2 = 52 ∨ r.log2 = 53 := by
    by_cases hr : r < 2 ^ 53
    · exact .inl ((Nat.log2_eq_iff (by omega)).mpr (by omega))
    · exact .inr ((Nat.log2_eq_iff (by omega)).mpr (by omega))
  obtain ⟨hmantissa', hexponent'⟩ :=
    shiftToTargetExponent_eq (m := r) (e := e₁) (by omega) (by omega)
  obtain ⟨hlow', hhigh'⟩ := bounds_of_shortened (m := r) (by omega)
  generalize shiftToTargetExponent Format.binary64 r e₁ .exact = second at hmantissa' hexponent'
  obtain ⟨em', e₂⟩ := second
  simp only at hmantissa' hexponent' ⊢
  rw [← hmantissa'] at hlow' hhigh'
  rw [dif_neg (by omega)]
  exact ⟨em'.mantissa, e₂, by omega, rfl, (Nat.log2_eq_iff (by omega)).mpr (by omega), by omega⟩

/-! ### Normal numbers -/

/-- The pattern of a positive number between two powers of two, the lower of which has the given
exponent. -/
def IsNormal (b : BitVec Format.binary64.numBits) (order : Int) : Prop :=
  ∃ (e : BitVec 11) (m : BitVec 52), b = packComponents Format.binary64 .positive e m ∧
    e ≠ 0#11 ∧ e ≠ -1#11 ∧ (e.toNat : Int) = order + 1023

theorem isNormal_pack {m : Nat} {e : Int} {h : 0 < m} (hm : m.log2 = 52) (hlow : -1074 ≤ e)
    (hhigh : e ≤ 971) : IsNormal (pack Format.binary64 (.finite .positive m e h)) (e + 52) := by
  have hbias : (e + Format.binary64.exponentBias +
      Format.binary64.mantissaBitsWithoutImplicit).toNat = (e + 1075).toNat := by
    show (e + (1023 : Nat) + (52 : Nat)).toNat = _
    omega
  have hbits : (BitVec.ofNat 11 (e + 1075).toNat).toNat = (e + 1075).toNat := by
    rw [BitVec.toNat_ofNat]
    omega
  have hones : (-1#11).toNat = 2047 := by decide
  refine ⟨BitVec.ofNat 11 (e + 1075).toNat, BitVec.ofNat 52 m, ?_, ?_, ?_, ?_⟩
  · rw [pack]
    simp only [hbias, hm]
    rw [if_neg (by show ¬2048 ≤ _; omega), if_pos (by decide)]
  · intro h
    rw [h] at hbits
    simp at hbits
    omega
  · intro h
    rw [h, hones] at hbits
    omega
  · rw [hbits]
    omega

theorem IsNormal.unpack_eq {b : BitVec Format.binary64.numBits} {order : Int}
    (h : IsNormal b order) :
    ∃ m e hm, unpack Format.binary64 b = .finite .positive m e hm ∧ m.log2 = 52 ∧
      e = order - 52 := by
  obtain ⟨e, m, rfl, hleast, hgreatest, horder⟩ := h
  have hm : (1#1 ++ m).toNat = 2 ^ 52 + m.toNat := by
    rw [BitVec.toNat_append, ← Nat.shiftLeft_add_eq_or_of_lt m.isLt]
    rfl
  have hlt := m.isLt
  have hsign : Sign.ofBitVec Sign.positive.toBitVec = .positive := rfl
  refine ⟨(1#1 ++ m).toNat, (e.toNat : Int) - 1075, by omega, ?_,
    (Nat.log2_eq_iff (by omega)).mpr (by omega), by omega⟩
  rw [unpack]
  simp only [unpackMantissa_packComponents, unpackExponent_packComponents,
    unpackSign_packComponents, hsign]
  rw [if_neg hgreatest, if_neg hleast]
  rfl

/-- Rounding keeps a number of the normal range in it. -/
theorem pack_roundWithAccuracy {m : Nat} {e : Int} (hm : 52 ≤ m.log2) (hlow : -1022 ≤ m.log2 + e)
    (hhigh : m.log2 + e < 1023) :
    ∃ order,
      IsNormal (pack Format.binary64 (roundWithAccuracy Format.binary64 .positive m e .exact))
        order ∧ (order = m.log2 + e ∨ order = m.log2 + e + 1) := by
  obtain ⟨m', e', h, heq, hlog, he⟩ := roundWithAccuracy_eq hm hlow
  rw [heq]
  exact ⟨e' + 52, isNormal_pack hlog (by omega) (by omega), by omega⟩

/-! ### Whole numbers -/

/-- A whole number of at most 53 bits is shifted to 53 bits. -/
theorem round_eq {n : Nat} (hn : n ≠ 0) (hlt : n < 2 ^ 53) :
    Float.Model.UnpackedFloat.round Format.binary64 .positive n 0 =
      roundWithAccuracy Format.binary64 .positive (n <<< (52 - n.log2)) (n.log2 - 52) .exact := by
  have hlog : n.log2 < 53 := (Nat.log2_lt hn).mpr hlt
  have htarget : Format.binary64.targetExponent (totalExponent n 0) =
      max ((n.log2 : Int) + 1 + 0 - 53) (-1074) := rfl
  have hshift : (0 - Format.binary64.targetExponent (totalExponent n 0)).toNat = 52 - n.log2 := by
    omega
  have hexponent : (0 : Int) - (52 - n.log2 : Nat) = n.log2 - 52 := by omega
  rw [Float.Model.UnpackedFloat.round]
  simp only [decreaseExponent, hshift, hexponent]

theorem isNormal_toFloat {n : Nat} (hn : n ≠ 0) (hlt : n < 2 ^ 53) :
    ∃ order, IsNormal n.toUInt64.toFloat.toBits.toBitVec order ∧ 0 ≤ order ∧ order ≤ 53 := by
  have hlog : n.log2 < 53 := (Nat.log2_lt hn).mpr hlt
  have hshifted : (n <<< (52 - n.log2)).log2 = 52 := by
    rw [log2_shiftLeft hn]
    omega
  have htoNat : n.toUInt64.toNat = n := Nat.mod_eq_of_lt (by omega)
  have hbits : n.toUInt64.toFloat.toBits.toBitVec =
      pack Format.binary64 (Float.Model.UnpackedFloat.round Format.binary64 .positive n 0) := by
    show pack Format.binary64 (Float.Model.UnpackedFloat.normalize Format.binary64
      (n.toUInt64.toNat : Int) 0 .positive) = _
    have hcompare : compare (n : Int) 0 = .gt := compare_gt_iff_gt.mpr (by omega)
    rw [htoNat, Float.Model.UnpackedFloat.normalize, hcompare]
    rfl
  rw [hbits, round_eq hn hlt]
  obtain ⟨order, horder, hbounds⟩ := pack_roundWithAccuracy (m := n <<< (52 - n.log2))
    (e := n.log2 - 52) (by omega) (by omega) (by omega)
  exact ⟨order, horder, by omega, by omega⟩

/-- A whole number of at most 53 bits is converted and multiplied by the power of ten that it
lacks, which is one. -/
theorem toBits_ofNat_of_lt {n : Nat} (hlt : n < 2 ^ 53) {m : Nat} {e : Int} {hm : 0 < m}
    (hunpack : n.toUInt64.toFloat.toModel.unpack = .finite .positive m e hm) :
    (Float.ofNat n).toBits.toBitVec = pack Format.binary64
      (roundWithAccuracy Format.binary64 .positive (m * 2 ^ 52) (e + -52) .exact) := by
  have hpow : (0 : Nat) ≤ 22 := by decide
  have hone : (1.0 : Float).toModel.unpack = .finite .positive (2 ^ 52) (-52) (by decide) := rfl
  have hfloat : Float.ofNat n = n.toUInt64.toFloat * 1.0 := by
    show Float.ofScientific n false 0 = _
    rw [Float.ofScientific, dif_pos ⟨hlt, hpow⟩]
    rfl
  rw [hfloat]
  show pack Format.binary64 (mul Format.binary64 n.toUInt64.toFloat.toModel.unpack
    (1.0 : Float).toModel.unpack) = _
  rw [hunpack, hone]
  rfl

/-- A larger number is rounded from as many more bits as a significand has. -/
theorem toBits_ofNat_of_not_lt {n : Nat} (hn : n ≠ 0) (hlarge : ¬n < 2 ^ 53) :
    (Float.ofNat n).toBits.toBitVec = pack Format.binary64
      (roundWithAccuracy Format.binary64 .positive (n <<< 53 * 1) (-53 + 0) .exact) := by
  show (Float.ofScientific n false 0).toBits.toBitVec = _
  rw [Float.ofScientific, dif_neg (fun h => hlarge h.1)]
  show pack Format.binary64 (ofScientific Format.binary64 n 0) = _
  rw [ofScientific, dif_neg hn, if_neg (by decide), if_neg (by simp), if_pos (by decide)]
  rfl

/-- A positive whole number of 64 bits becomes a number of the normal range. -/
theorem isNormal_ofNat {n : Nat} (hn : n ≠ 0) (hlt : n < 2 ^ 64) :
    ∃ order, IsNormal (Float.ofNat n).toBits.toBitVec order := by
  by_cases hsmall : n < 2 ^ 53
  · obtain ⟨order, hnormal, hlow, hhigh⟩ := isNormal_toFloat hn hsmall
    obtain ⟨m, e, hm, hunpack, hlog, rfl⟩ := hnormal.unpack_eq
    have hproduct : (m * 2 ^ 52).log2 = 104 := by
      rw [← Nat.shiftLeft_eq, log2_shiftLeft (by omega), hlog]
    rw [toBits_ofNat_of_lt hsmall hunpack]
    obtain ⟨order, horder, -⟩ := pack_roundWithAccuracy (m := m * 2 ^ 52)
      (e := order - 52 + -52) (by omega) (by omega) (by omega)
    exact ⟨order, horder⟩
  · have hlog : n.log2 < 64 := (Nat.log2_lt hn).mpr hlt
    have hshifted : (n <<< 53 * 1).log2 = n.log2 + 53 := by
      rw [Nat.mul_one, log2_shiftLeft hn]
    rw [toBits_ofNat_of_not_lt hn hsmall]
    obtain ⟨order, horder, -⟩ := pack_roundWithAccuracy (m := n <<< 53 * 1) (e := -53 + 0)
      (by omega) (by omega) (by omega)
    exact ⟨order, horder⟩

theorem ofNat_positive {n : Nat} (hn : n ≠ 0) (hlt : n < 2 ^ 64) :
    0.0 < Float.ofNat n ∧ (Float.ofNat n).isFinite := by
  obtain ⟨order, hnormal⟩ := isNormal_ofNat hn hlt
  obtain ⟨m, e, hm, hunpack, -⟩ := hnormal.unpack_eq
  have hunpack : (Float.ofNat n).toModel.unpack = .finite .positive m e hm := hunpack
  constructor
  · show decide (((0.0 : Float).toModel.unpack.compare (Float.ofNat n).toModel.unpack == some .lt) =
      true) = true
    rw [hunpack, unpack_zero]
    rfl
  · show (Float.ofNat n).toModel.unpack.isFinite = true
    rw [hunpack]
    rfl

/-- The negation of a positive number is not positive. -/
theorem not_lt_neg {x : Float} (hx : x.isFinite) (hpos : 0.0 < x) : ¬0.0 < -x := by
  intro hneg
  have hsign : x.toBits.toNat < 2 ^ 63 := Nat.lt_of_not_le fun hle => not_zero_lt hle hpos
  have hsign' : (-x).toBits.toNat < 2 ^ 63 := Nat.lt_of_not_le fun hle => not_zero_lt hle hneg
  exact absurd ((toBits_neg hx).2.mp hsign') (Nat.not_le_of_lt hsign)

/-- An integer of 64 bits is positive exactly if it becomes a positive number, which is finite
then. -/
theorem zero_lt_ofInt_iff {n : Int} (hlow : -0x8000000000000000 ≤ n)
    (hhigh : n < 0x8000000000000000) :
    0.0 < Float.ofInt n ∧ (Float.ofInt n).isFinite ↔ 0 < n := by
  rcases n with n | n
  · by_cases hn : n = 0
    · subst hn
      exact iff_of_false (by decide) (by decide)
    · rw [Int.ofNat_eq_natCast] at hhigh ⊢
      exact iff_of_true (ofNat_positive hn (by omega)) (by omega)
  · obtain ⟨hpos, hfinite⟩ := ofNat_positive (n := n + 1) (by omega) (by omega)
    exact iff_of_false (fun h => not_lt_neg hfinite hpos h.1) (by omega)

end FractalFormula.Binary64
