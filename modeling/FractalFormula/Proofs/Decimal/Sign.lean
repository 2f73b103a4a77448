import FractalFormula.Proofs.Decimal.Bits

/-!
# Signs of binary64 numbers

The negation of a finite number differs from it in the sign bit alone (`toBits_neg`). From this come
the negation of a negation, the absolute value, and sums and differences with zero, which are exact:
`0 - -x` is `x`, and zero added to a number that is not zero leaves it as it is.
-/

namespace FractalFormula.Binary64

open Float.Model (Format)
open Float.Model.UnpackedFloat

/-! ### The sign bit -/

theorem toBitVec_neg (s : Sign) : (-s).toBitVec = ~~~s.toBitVec := by
  cases s <;> rfl

/-- The fields of the negation of a finite number. -/
theorem pack_neg {u : Float.Model.UnpackedFloat} (hu : u.isFinite) :
    unpackMantissa (pack Format.binary64 u.neg) = unpackMantissa (pack Format.binary64 u) ∧
      unpackExponent (pack Format.binary64 u.neg) = unpackExponent (pack Format.binary64 u) ∧
      unpackSign (pack Format.binary64 u.neg) = ~~~unpackSign (pack Format.binary64 u) := by
  cases u with
  | notANumber => nomatch hu
  | infinity s => nomatch hu
  | zero s => simp [neg, pack, packedZero, toBitVec_neg]
  | finite s m e h =>
    simp only [neg, pack]
    split_ifs <;> simp [packedInfinity, toBitVec_neg]

theorem toNat_not (s : BitVec 1) : (~~~s).toNat = 1 - s.toNat := by
  revert s
  decide

/-- A negation differs in the sign bit alone. -/
theorem toBits_neg {x : Float} (hx : x.isFinite) :
    (-x).toBits.toNat % 2 ^ 63 = x.toBits.toNat % 2 ^ 63 ∧
      ((-x).toBits.toNat < 2 ^ 63 ↔ 2 ^ 63 ≤ x.toBits.toNat) := by
  obtain ⟨⟨bits, hvalid⟩⟩ := x
  obtain ⟨hm, he, hs⟩ := pack_neg (u := unpack Format.binary64 bits.toBitVec) hx
  rw [pack_unpack hvalid] at hm he hs
  show (pack Format.binary64 (unpack Format.binary64 bits.toBitVec).neg).toNat % 2 ^ 63 =
      bits.toBitVec.toNat % 2 ^ 63 ∧
    ((pack Format.binary64 (unpack Format.binary64 bits.toBitVec).neg).toNat < 2 ^ 63 ↔
      2 ^ 63 ≤ bits.toBitVec.toNat)
  generalize pack Format.binary64 (unpack Format.binary64 bits.toBitVec).neg = b at hm he hs ⊢
  generalize bits.toBitVec = c at hm he hs ⊢
  have hmantissa := toNat_unpackMantissa b
  have hexponent := toNat_unpackExponent b
  have hsign := toNat_unpackSign b
  rw [hm, toNat_unpackMantissa] at hmantissa
  rw [he, toNat_unpackExponent] at hexponent
  rw [hs, toNat_not, toNat_unpackSign] at hsign
  have hb : b.toNat < 2 ^ 64 := b.isLt
  have hc : c.toNat < 2 ^ 64 := c.isLt
  omega

theorem isFinite_neg {x : Float} (hx : x.isFinite) : (-x).isFinite := by
  rw [isFinite_iff, (toBits_neg hx).1]
  exact (isFinite_iff x).mp hx

protected theorem neg_neg {x : Float} (hx : x.isFinite) : - -x = x := by
  obtain ⟨hmagnitude, hsign⟩ := toBits_neg hx
  obtain ⟨hmagnitude', hsign'⟩ := toBits_neg (isFinite_neg hx)
  have hbits : (- -x).toBits = x.toBits := by
    have hx64 := x.toBits.toNat_lt
    have hnegated := (-x).toBits.toNat_lt
    have hx64' := (- -x).toBits.toNat_lt
    apply UInt64.toNat_inj.mp
    omega
  rw [← ofBits_toBits (- -x), hbits, ofBits_toBits]

/-! ### Numbers below zero -/

section

variable {x : Float}

theorem le_toBits_of_lt_zero (hneg : x < 0.0) : 2 ^ 63 ≤ x.toBits.toNat := by
  by_contra hnot
  exact not_lt_zero (Nat.lt_of_not_le hnot) hneg

/-- The negation of a number below zero has no sign bit. -/
theorem toBits_neg_lt (hx : x.isFinite) (hneg : x < 0.0) : (-x).toBits.toNat < infinityBits := by
  have hlt := (toBits_neg hx).2.mpr (le_toBits_of_lt_zero hneg)
  have hmagnitude := (isFinite_iff (-x)).mp (isFinite_neg hx)
  rwa [Nat.mod_eq_of_lt hlt] at hmagnitude

/-- The parts of a number below zero and of its negation. -/
theorem ofFloat_neg (hx : x.isFinite) (hneg : x < 0.0) :
    ∃ m k, ofFloat x = .finite true m k ∧ ofFloat (-x) = .finite false m k := by
  have hle := le_toBits_of_lt_zero hneg
  obtain ⟨hmagnitude, hsign⟩ := toBits_neg hx
  have hlt := hsign.mpr hle
  obtain ⟨m, k, hparts, -⟩ := ofBits_finite ((isFinite_iff x).mp hx)
  refine ⟨m, k, ?_, ?_⟩
  · rw [ofFloat, hparts, decide_eq_true hle]
  · have hfraction : (-x).toBits.toNat % 2 ^ 52 = x.toBits.toNat % 2 ^ 52 := by omega
    rw [ofBits] at hparts
    rw [ofFloat, ofBits]
    simp only [Nat.pow_eq] at hparts ⊢
    rw [hmagnitude, hfraction, decide_eq_false (Nat.not_le_of_lt hlt)]
    split_ifs at hparts ⊢ with hbiased hleast
    · simpa using hparts
    · simpa using hparts

end

/-- There are two zeros. -/
theorem eq_zero_or_of_beq {x : Float} (h : (x == 0.0) = true) : x = 0.0 ∨ x = -0.0 := by
  have hlt := x.toBits.toNat_lt
  have hmagnitude := (beq_zero_iff x).mp h
  by_cases hsign : x.toBits.toNat = 0
  · have hbits : x.toBits = 0 := UInt64.toNat_inj.mp hsign
    left
    rw [← ofBits_toBits x, hbits]
    rfl
  · have hbits : x.toBits = 0x8000000000000000 := by
      apply UInt64.toNat_inj.mp
      show x.toBits.toNat = 2 ^ 63
      omega
    right
    rw [← ofBits_toBits x, hbits]
    rfl

/-! ### Numbers that are not zero -/

section

variable {x : Float}

/-- A finite number that is not zero, unpacked. -/
theorem unpack_eq_finite (hx : x.isFinite) (hzero : (x == 0.0) = false) :
    ∃ s m e h, x.toModel.unpack = .finite s m e h ∧
      (s = .positive ↔ x.toBits.toNat / 2 ^ 63 % 2 = 0) := by
  have hlt := (isFinite_iff x).mp hx
  have hne : x.toBits.toNat % 2 ^ 63 ≠ 0 := fun h => by
    rw [(beq_zero_iff x).mpr h] at hzero
    nomatch hzero
  have h : Unpacks x.toBits.toNat x.toModel.unpack := unpacks x.toBits.toBitVec
  generalize x.toModel.unpack = u at h
  cases h with
  | zero s h => exact absurd h hne
  | finite s m e hm _ _ hs => exact ⟨s, m, e, hm, rfl, hs⟩
  | infinite s h => omega
  | nan h => omega

/-- What a number is unpacked to is packed to the number. -/
theorem ofModel_pack {u : Float.Model.UnpackedFloat} (hu : u = x.toModel.unpack) :
    Float.ofModel (.pack u) = x := by
  subst hu
  exact ofBits_toBits x

/-- The sign bit tells which numbers lie below zero. -/
theorem lt_zero_iff (hx : x.isFinite) (hzero : (x == 0.0) = false) :
    x < 0.0 ↔ 2 ^ 63 ≤ x.toBits.toNat := by
  refine ⟨le_toBits_of_lt_zero, fun hle => ?_⟩
  obtain ⟨s, m, e, h, hu, hs⟩ := unpack_eq_finite hx hzero
  have hlt := x.toBits.toNat_lt
  have hnegative : s = .negative := by
    cases s with
    | negative => rfl
    | positive =>
      have := hs.mp rfl
      omega
  show decide ((x.toModel.unpack.compare (0.0 : Float).toModel.unpack == some .lt) = true) = true
  rw [hu, hnegative]
  rfl

theorem toBits_lt (hx : x.isFinite) (hzero : (x == 0.0) = false) (hneg : ¬x < 0.0) :
    x.toBits.toNat < infinityBits := by
  have hlt := Nat.lt_of_not_le (mt (lt_zero_iff hx hzero).mpr hneg)
  have hmagnitude := (isFinite_iff x).mp hx
  rwa [Nat.mod_eq_of_lt hlt] at hmagnitude

protected theorem add_zero (hx : x.isFinite) (hzero : (x == 0.0) = false) : x + 0.0 = x := by
  obtain ⟨s, m, e, h, hu, -⟩ := unpack_eq_finite hx hzero
  have hsum : add Format.binary64 x.toModel.unpack (.zero .positive) = x.toModel.unpack := by
    rw [hu]
    rfl
  exact ofModel_pack hsum

protected theorem zero_add (hx : x.isFinite) (hzero : (x == 0.0) = false) : 0.0 + x = x := by
  obtain ⟨s, m, e, h, hu, -⟩ := unpack_eq_finite hx hzero
  have hsum : add Format.binary64 (.zero .positive) x.toModel.unpack = x.toModel.unpack := by
    rw [hu]
    rfl
  exact ofModel_pack hsum

protected theorem sub_zero (hx : x.isFinite) (hzero : (x == 0.0) = false) : x - 0.0 = x := by
  obtain ⟨s, m, e, h, hu, -⟩ := unpack_eq_finite hx hzero
  have hdifference : sub Format.binary64 x.toModel.unpack (.zero .positive) =
      x.toModel.unpack := by
    rw [hu]
    rfl
  exact ofModel_pack hdifference

protected theorem zero_sub (hx : x.isFinite) (hzero : (x == 0.0) = false) : 0.0 - x = -x := by
  obtain ⟨s, m, e, h, hu, -⟩ := unpack_eq_finite hx hzero
  show Float.ofModel (.pack (sub Format.binary64 (.zero .positive) x.toModel.unpack)) =
    Float.ofModel (.pack x.toModel.unpack.neg)
  rw [hu]
  rfl

theorem neg_beq_zero (hx : x.isFinite) (hzero : (x == 0.0) = false) : (-x == 0.0) = false := by
  rw [Bool.eq_false_iff, ne_eq, beq_zero_iff] at hzero ⊢
  rwa [(toBits_neg hx).1]

/-- Zero less the negation is the number itself, exactly. -/
theorem zero_sub_neg (hx : x.isFinite) (hzero : (x == 0.0) = false) : 0.0 - -x = x := by
  rw [Binary64.zero_sub (isFinite_neg hx) (neg_beq_zero hx hzero), Binary64.neg_neg hx]

theorem abs_eq (hx : x.isFinite) (hzero : (x == 0.0) = false) :
    x.abs = if x < 0.0 then -x else x := by
  obtain ⟨s, m, e, h, hu, hs⟩ := unpack_eq_finite hx hzero
  have hlt := x.toBits.toNat_lt
  have habs : x.abs = Float.ofModel (.pack (.finite .positive m e h)) := by
    show Float.ofModel (.pack x.toModel.unpack.abs) = _
    rw [hu]
    rfl
  rw [habs]
  split_ifs with hneg
  · rw [lt_zero_iff hx hzero] at hneg
    show _ = Float.ofModel (.pack x.toModel.unpack.neg)
    rw [hu]
    cases s with
    | negative => rfl
    | positive =>
      have := hs.mp rfl
      omega
  · rw [lt_zero_iff hx hzero] at hneg
    obtain rfl := hs.mpr (by omega)
    exact ofModel_pack hu.symm

theorem toBits_abs_lt (hx : x.isFinite) (hzero : (x == 0.0) = false) :
    x.abs.toBits.toNat < infinityBits := by
  rw [abs_eq hx hzero]
  split_ifs with hneg
  · exact toBits_neg_lt hx hneg
  · exact toBits_lt hx hzero hneg

end

end FractalFormula.Binary64
