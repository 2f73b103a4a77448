import Mathlib
import FractalFormula.Decimal.Reading

/-!
# Bit patterns of binary64 numbers

A number and its bit pattern determine each other (`ofBits_toBits`, `toBits_ofBits`), and the
parts of a number, as `Binary64.ofFloat` takes them from the bits, decide the comparisons and
tests that the printer makes.
-/

namespace FractalFormula.Binary64

open Float.Model (Format)
open Float.Model.UnpackedFloat

/-! ### Fields -/

section

variable (b : BitVec Format.binary64.numBits)

theorem toNat_unpackMantissa : (unpackMantissa b).toNat = b.toNat % 2 ^ 52 := by
  simp [unpackMantissa]

theorem toNat_unpackExponent : (unpackExponent b).toNat = b.toNat / 2 ^ 52 % 2 ^ 11 := by
  simp [unpackExponent, Nat.shiftRight_eq_div_pow]

theorem toNat_unpackSign : (unpackSign b).toNat = b.toNat / 2 ^ 63 % 2 := by
  simp [unpackSign, Nat.shiftRight_eq_div_pow]

/-- A pattern is put together from its fields. -/
theorem packComponents_fields :
    packComponents Format.binary64 (Sign.ofBitVec (unpackSign b)) (unpackExponent b)
      (unpackMantissa b) = b := by
  have hsign : ∀ s : BitVec 1, (Sign.ofBitVec s).toBitVec = s := by decide
  have hlt : b.toNat < 2 ^ 64 := b.isLt
  rw [packComponents, hsign]
  apply BitVec.eq_of_toNat_eq
  have hm := (unpackMantissa b).isLt
  have he := (unpackExponent b).isLt
  rw [BitVec.toNat_append, BitVec.toNat_append, ← Nat.shiftLeft_add_eq_or_of_lt hm,
    ← Nat.shiftLeft_add_eq_or_of_lt he, toNat_unpackMantissa, toNat_unpackExponent,
    toNat_unpackSign, Nat.shiftLeft_eq, Nat.shiftLeft_eq]
  simp only
  omega

end

/-! ### Packing -/

theorem pack_subnormal (s : Sign) {m : BitVec 52} (h : 0 < m.toNat) :
    pack Format.binary64 (.finite s m.toNat (-1074) h) =
      packComponents Format.binary64 s 0#11 m := by
  have hlog : m.toNat.log2 < 52 := (Nat.log2_lt (by omega)).mpr m.isLt
  have hbits : m.toNat.log2 + 1 ≠ Format.binary64.mantissaBits := by
    show m.toNat.log2 + 1 ≠ 53
    omega
  rw [pack]
  simp only
  rw [if_neg (by decide), if_neg hbits, BitVec.ofNat_toNat, BitVec.setWidth_eq]

theorem pack_normal (s : Sign) {e : BitVec 11} (m : BitVec 52) (h : 0 < (1#1 ++ m).toNat)
    (he : e ≠ -1#11) :
    pack Format.binary64 (.finite s (1#1 ++ m).toNat (e.toNat - 1075) h) =
      packComponents Format.binary64 s e m := by
  have hm : (1#1 ++ m).toNat = 2 ^ 52 + m.toNat := by
    rw [BitVec.toNat_append, ← Nat.shiftLeft_add_eq_or_of_lt m.isLt]
    rfl
  have hlog : (1#1 ++ m).toNat.log2 = 52 := by
    have hlt := m.isLt
    exact (Nat.log2_eq_iff (by omega)).mpr (by omega)
  have hbias : ((e.toNat : Int) - 1075 + Format.binary64.exponentBias +
      Format.binary64.mantissaBitsWithoutImplicit).toNat = e.toNat := by
    show ((e.toNat : Int) - 1075 + (1023 : Nat) + (52 : Nat)).toNat = e.toNat
    omega
  have hinf : ¬2 ^ Format.binary64.exponentBits ≤ e.toNat + 1 := by
    have hlt := e.isLt
    have hne : e.toNat ≠ (-1#11).toNat := fun h => he (BitVec.eq_of_toNat_eq h)
    have hones : (-1#11).toNat = 2047 := by decide
    show ¬2048 ≤ e.toNat + 1
    omega
  rw [pack]
  simp only [hbias, hlog]
  rw [if_neg hinf, if_pos (by decide), BitVec.ofNat_toNat, BitVec.setWidth_eq]
  congr 1
  apply BitVec.eq_of_toNat_eq
  rw [BitVec.toNat_ofNat, hm, Nat.add_mod_left]
  exact Nat.mod_eq_of_lt m.isLt

theorem pack_unpack {b : BitVec Format.binary64.numBits} (h : Format.binary64.Valid b) :
    pack Format.binary64 (unpack Format.binary64 b) = b := by
  have hb := packComponents_fields b
  have hnan := h.eq_packedNaN
  rw [unpack]
  simp only
  split
  · next he =>
    split
    · next hm =>
      rw [he, hm] at hb
      exact hb
    · next hm => exact (hnan he hm).symm
  · next he =>
    split
    · next hz =>
      split
      · next hm =>
        rw [hz, hm] at hb
        exact hb
      · next hm =>
        have hpos : 0 < (unpackMantissa b).toNat := Nat.pos_of_ne_zero fun h =>
          hm (BitVec.eq_of_toNat_eq h)
        have hexponent :
            ((unpackExponent b).toNat : Int) - (Format.binary64.exponentBias + 52) + 1 = -1074 := by
          rw [hz]
          rfl
        rw [hz] at hb
        refine Eq.trans ?_ ((pack_subnormal _ hpos).trans hb)
        congr 2
    · exact (pack_normal _ _ _ he).trans hb

/-! ### Numbers and patterns -/

theorem ofBits_toBits (x : Float) : Float.ofBits x.toBits = x := by
  obtain ⟨⟨bits, hvalid⟩⟩ := x
  have h :
      UInt64.ofBitVec (pack Format.binary64 (unpack Format.binary64 bits.toBitVec)) = bits := by
    rw [pack_unpack hvalid]
  simp only [Float.toBits, Float.ofBits, Float.Model.ofBits, Float.Model.pack, h]

theorem toBits_ofBits {bits : UInt64} (h : bits.toNat % 2 ^ 63 ≤ infinityBits) :
    (Float.ofBits bits).toBits = bits := by
  have hvalid : Format.binary64.Valid bits.toBitVec := by
    refine ⟨fun he hm => absurd ?_ hm⟩
    have hexponent : bits.toNat / 2 ^ 52 % 2 ^ 11 = 2047 :=
      (toNat_unpackExponent bits.toBitVec).symm.trans (congrArg BitVec.toNat he)
    simp only [infinityBits, Nat.pow_eq] at h
    have hmantissa : bits.toNat % 2 ^ 52 = 0 := by omega
    exact BitVec.eq_of_toNat_eq ((toNat_unpackMantissa bits.toBitVec).trans hmantissa)
  show UInt64.ofBitVec (pack Format.binary64 (unpack Format.binary64 bits.toBitVec)) = bits
  rw [pack_unpack hvalid]

/-! ### Tests and comparisons -/

/-- What a pattern unpacks to, by its magnitude and its sign bit. -/
inductive Unpacks (bits : Nat) : Float.Model.UnpackedFloat → Prop where
  | zero (s : Sign) : bits % 2 ^ 63 = 0 → Unpacks bits (.zero s)
  | finite (s : Sign) (m : Nat) (e : Int) (h : 0 < m) : 0 < bits % 2 ^ 63 →
    bits % 2 ^ 63 < infinityBits → (s = .positive ↔ bits / 2 ^ 63 % 2 = 0) →
    Unpacks bits (.finite s m e h)
  | infinite (s : Sign) : bits % 2 ^ 63 = infinityBits →
    (s = .positive ↔ bits / 2 ^ 63 % 2 = 0) → Unpacks bits (.infinity s)
  | nan : infinityBits < bits % 2 ^ 63 → Unpacks bits .notANumber

theorem ofBitVec_eq_positive_iff : ∀ s : BitVec 1, Sign.ofBitVec s = .positive ↔ s.toNat = 0 := by
  intro s
  rw [Sign.ofBitVec]
  split
  · next h => simp [h]
  · next h => simpa [BitVec.toNat_eq] using h

theorem unpacks (b : BitVec Format.binary64.numBits) :
    Unpacks b.toNat (unpack Format.binary64 b) := by
  have hm := toNat_unpackMantissa b
  have he := toNat_unpackExponent b
  have hsign := toNat_unpackSign b ▸ ofBitVec_eq_positive_iff (unpackSign b)
  have hzero : unpackMantissa b = 0#52 ↔ (unpackMantissa b).toNat = 0 := BitVec.toNat_eq
  have hleast : unpackExponent b = 0#11 ↔ (unpackExponent b).toNat = 0 := BitVec.toNat_eq
  have hgreatest : unpackExponent b = -1#11 ↔ (unpackExponent b).toNat = 2047 := BitVec.toNat_eq
  have hinf : infinityBits = 2047 * 2 ^ 52 := rfl
  rw [unpack]
  simp only
  split
  · next h =>
    have h := hgreatest.mp h
    split
    · next h' =>
      have h' := hzero.mp h'
      exact .infinite _ (by omega) hsign
    · next h' =>
      have h' := mt hzero.mpr h'
      exact .nan (by omega)
  · next h =>
    have h := mt hgreatest.mpr h
    split
    · next h' =>
      have h' := hleast.mp h'
      split
      · next h'' =>
        have h'' := hzero.mp h''
        exact .zero _ (by omega)
      · next h'' =>
        have h'' := mt hzero.mpr h''
        exact .finite _ _ _ _ (by omega) (by omega) hsign
    · next h' =>
      have h' := mt hleast.mpr h'
      exact .finite _ _ _ _ (by omega) (by omega) hsign

theorem unpack_zero : (0.0 : Float).toModel.unpack = .zero .positive := rfl

/-- Both zeros equal zero, and nothing else does. -/
theorem beq_zero_iff (x : Float) : (x == 0.0) = true ↔ x.toBits.toNat % 2 ^ 63 = 0 := by
  show (x.toModel.unpack.compare (0.0 : Float).toModel.unpack == some .eq) = true ↔ _
  rw [unpack_zero]
  have h : Unpacks x.toBits.toNat x.toModel.unpack := unpacks x.toBits.toBitVec
  generalize x.toModel.unpack = u at h ⊢
  cases h with
  | zero s h => exact iff_of_true rfl h
  | finite s m e hm h =>
    cases s <;> simp only [Float.Model.UnpackedFloat.compare] <;>
      exact iff_of_false (by decide) (by omega)
  | infinite s h =>
    have hne : x.toBits.toNat % 2 ^ 63 ≠ 0 := by
      rw [h]
      decide
    cases s <;> exact iff_of_false (by decide) hne
  | nan h =>
    simp only [Float.Model.UnpackedFloat.compare]
    exact iff_of_false (by decide) (by omega)

/-- Every number but NaN equals itself. -/
theorem beq_self_iff (x : Float) : (x == x) = true ↔ x.toBits.toNat % 2 ^ 63 ≤ infinityBits := by
  show (x.toModel.unpack.compare x.toModel.unpack == some .eq) = true ↔ _
  have h : Unpacks x.toBits.toNat x.toModel.unpack := unpacks x.toBits.toBitVec
  generalize x.toModel.unpack = u at h ⊢
  cases h with
  | zero s h => exact iff_of_true rfl (by rw [h]; exact Nat.zero_le _)
  | finite s m e hm _ h =>
    refine iff_of_true ?_ (Nat.le_of_lt h)
    cases s <;> simp [Float.Model.UnpackedFloat.compare, Std.ReflCmp.compare_self]
  | infinite s h => cases s <;> exact iff_of_true (by decide) (Nat.le_of_eq h)
  | nan h => exact iff_of_false (by decide) (by omega)

/-- A number without a sign bit is not below zero. -/
theorem not_lt_zero {x : Float} (hx : x.toBits.toNat < 2 ^ 63) : ¬x < 0.0 := by
  intro hlt
  have hlt : (x.toModel.unpack.compare (0.0 : Float).toModel.unpack == some .lt) = true :=
    of_decide_eq_true hlt
  rw [unpack_zero] at hlt
  have h : Unpacks x.toBits.toNat x.toModel.unpack := unpacks x.toBits.toBitVec
  generalize x.toModel.unpack = u at h hlt
  cases h with
  | zero s h => simp [Float.Model.UnpackedFloat.compare] at hlt
  | finite s m e hm _ _ hs =>
    obtain rfl := hs.mpr (by omega)
    simp [Float.Model.UnpackedFloat.compare] at hlt
  | infinite s _ hs =>
    obtain rfl := hs.mpr (by omega)
    simp [Float.Model.UnpackedFloat.compare] at hlt
  | nan h => simp [Float.Model.UnpackedFloat.compare] at hlt

theorem isFinite_iff (x : Float) : x.isFinite ↔ x.toBits.toNat % 2 ^ 63 < infinityBits := by
  show x.toModel.unpack.isFinite ↔ _
  have h : Unpacks x.toBits.toNat x.toModel.unpack := unpacks x.toBits.toBitVec
  generalize x.toModel.unpack = u at h ⊢
  cases h with
  | zero s h => exact iff_of_true rfl (by rw [h]; decide)
  | finite s m e hm _ h => exact iff_of_true rfl h
  | infinite s h =>
    simp only [Float.Model.UnpackedFloat.isFinite]
    exact iff_of_false (by decide) (Nat.not_lt_of_le (Nat.le_of_eq h.symm))
  | nan h =>
    simp only [Float.Model.UnpackedFloat.isFinite]
    exact iff_of_false (by decide) (by omega)

theorem isNaN_of_isFinite {x : Float} (hx : x.isFinite) : x.isNaN = false := by
  have hx : x.toModel.unpack.isFinite = true := hx
  show x.toModel.unpack.isNaN = false
  cases hu : x.toModel.unpack with
  | notANumber =>
    rw [hu] at hx
    nomatch hx
  | infinity s => rfl
  | zero s => rfl
  | finite s m e hm => rfl

theorem isInf_of_isFinite {x : Float} (hx : x.isFinite) : x.isInf = false := by
  have hx : x.toModel.unpack.isFinite = true := hx
  show x.toModel.unpack.isInf = false
  cases hu : x.toModel.unpack with
  | notANumber => rfl
  | infinity s =>
    rw [hu] at hx
    nomatch hx
  | zero s => rfl
  | finite s m e hm => rfl

/-! ### Parts -/

/-- The parts that a finite number is taken apart into: the significand is shorter than 53 bits
only at scale zero. -/
def Canonical (m k : Nat) : Prop := (m < 2 ^ 52 ∧ k = 0) ∨ (2 ^ 52 ≤ m ∧ m < 2 ^ 53 ∧ k ≤ 2045)

theorem Canonical.lt_infinityBits {m k : Nat} (h : Canonical m k) :
    k * 2 ^ 52 + m < infinityBits := by
  simp only [Canonical] at h
  simp only [infinityBits, Nat.pow_eq]
  omega

/-- The bits of the magnitude are the scale and the significand added up. -/
theorem ofBits_finite {bits : Nat} (h : bits % 2 ^ 63 < infinityBits) :
    ∃ m k, ofBits bits = .finite (decide (2 ^ 63 ≤ bits)) m k ∧ Canonical m k ∧
      bits % 2 ^ 63 = k * 2 ^ 52 + m := by
  simp only [infinityBits, Nat.pow_eq] at h
  simp only [ofBits, Nat.pow_eq]
  rw [if_neg (by omega)]
  by_cases hz : bits % 2 ^ 63 / 2 ^ 52 = 0
  · refine ⟨bits % 2 ^ 52, 0, by rw [if_pos hz], Or.inl ⟨by omega, rfl⟩, by omega⟩
  · refine ⟨bits % 2 ^ 52 + 2 ^ 52, bits % 2 ^ 63 / 2 ^ 52 - 1, by rw [if_neg hz], Or.inr ?_, ?_⟩
    · omega
    · omega

/-- A finite number is made of its parts. -/
theorem ofFloat_finite {x : Float} (h : x.toBits.toNat % 2 ^ 63 < infinityBits) :
    ∃ negative m k, ofFloat x = .finite negative m k ∧ Canonical m k ∧
      x = toFloat negative (k * 2 ^ 52 + m) ∧ (negative = true ↔ 2 ^ 63 ≤ x.toBits.toNat) := by
  have hlt := x.toBits.toNat_lt
  obtain ⟨m, k, hparts, hcan, hbits⟩ := ofBits_finite h
  refine ⟨_, m, k, hparts, hcan, ?_, decide_eq_true_iff⟩
  rw [toFloat, ← hbits, ← ofBits_toBits x]
  congr 1
  apply UInt64.toNat_inj.mp
  rw [ofBits_toBits, UInt64.toNat_ofNat', Nat.pow_eq]
  by_cases hs : 2 ^ 63 ≤ x.toBits.toNat
  · rw [decide_eq_true hs, if_pos rfl]
    omega
  · rw [decide_eq_false hs, if_neg (by decide)]
    omega

end FractalFormula.Binary64
