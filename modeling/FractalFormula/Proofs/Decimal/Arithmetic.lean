import FractalFormula.Proofs.Decimal.Whole

/-!
# Finite results of binary64 arithmetic

Numbers that are not finite go through arithmetic: a sum, a difference or a product is finite only
if both operands are, and a quotient only if the dividend is.

In the other direction, one and minus one as factors or divisors change nothing but a sign, and the
double of a number is its sum with itself, both exactly (`mul_one`, `div_one`, `two_mul`). Zero as
a summand is exact but for the sign of a zero, and so is replacing an operand by a number that
compares as equal to it (`Alike`).
-/

namespace FractalFormula.Binary64

open Float.Model (Format totalExponent)
open Float.Model.UnpackedFloat

/-! ### Operands that are not finite -/

theorem isFinite_of_pack {u : Float.Model.UnpackedFloat}
    (h : (Float.ofModel (.pack u)).isFinite) : u.isFinite := by
  cases u with
  | notANumber => exact absurd h (by decide)
  | infinity s => cases s <;> exact absurd h (by decide)
  | zero s => rfl
  | finite s m e hm => rfl

section

variable {x y : Float}

/-- An operation that is finite only on operands that are. -/
theorem isFinite_of_operation
    {op : Float.Model.UnpackedFloat → Float.Model.UnpackedFloat → Float.Model.UnpackedFloat}
    (hop : ∀ u v, (op u v).isFinite → u.isFinite ∧ v.isFinite)
    (h : (Float.ofModel (.pack (op x.toModel.unpack y.toModel.unpack))).isFinite) :
    x.isFinite ∧ y.isFinite :=
  hop _ _ (isFinite_of_pack h)

theorem isFinite_of_add (h : (x + y).isFinite) : x.isFinite ∧ y.isFinite := by
  refine isFinite_of_operation (fun u v hsum => ?_) h
  rcases u with (_ | _) | _ | _ | _ <;> rcases v with (_ | _) | _ | _ | _ <;>
    first | exact ⟨rfl, rfl⟩ | cases hsum

theorem isFinite_of_sub (h : (x - y).isFinite) : x.isFinite ∧ y.isFinite := by
  refine isFinite_of_operation (fun u v hdifference => ?_) h
  rcases u with (_ | _) | _ | _ | _ <;> rcases v with (_ | _) | _ | _ | _ <;>
    first | exact ⟨rfl, rfl⟩ | cases hdifference

theorem isFinite_of_mul (h : (x * y).isFinite) : x.isFinite ∧ y.isFinite := by
  refine isFinite_of_operation (fun u v hproduct => ?_) h
  rcases u with _ | _ | _ | _ <;> rcases v with _ | _ | _ | _ <;>
    first | exact ⟨rfl, rfl⟩ | cases hproduct

/-- A quotient by an infinite number is zero. -/
theorem isFinite_of_div (h : (x / y).isFinite) : x.isFinite := by
  have h : (div Format.binary64 x.toModel.unpack y.toModel.unpack).isFinite := isFinite_of_pack h
  show x.toModel.unpack.isFinite
  generalize x.toModel.unpack = u at h ⊢
  generalize y.toModel.unpack = v at h ⊢
  rcases u with _ | _ | _ | _ <;> rcases v with _ | _ | _ | _ <;> first | rfl | cases h

end

/-! ### Rounding -/

/-- The shape of the finite numbers that patterns unpack to. -/
theorem unpack_canonical {b : BitVec Format.binary64.numBits} {s : Sign} {m : Nat} {e : Int}
    {h : 0 < m} (hb : unpack Format.binary64 b = .finite s m e h) :
    -1074 ≤ e ∧ (m.log2 = 52 ∨ m < 2 ^ 52 ∧ e = -1074) := by
  have hlt := (unpackMantissa b).isLt
  have hbias : (Format.binary64.exponentBias : Int) + (52 : Nat) = 1075 := rfl
  rw [unpack] at hb
  simp only [hbias] at hb
  split at hb
  · split at hb <;> cases hb
  · split at hb
    · next hleast =>
      split at hb
      · cases hb
      · simp only [hleast] at hb
        cases hb
        exact ⟨by decide, .inr ⟨hlt, by decide⟩⟩
    · next hleast =>
      cases hb
      have hm : (1#1 ++ unpackMantissa b).toNat = 2 ^ 52 + (unpackMantissa b).toNat := by
        rw [BitVec.toNat_append, ← Nat.shiftLeft_add_eq_or_of_lt (unpackMantissa b).isLt]
        rfl
      have hpos : (unpackExponent b).toNat ≠ 0 := fun h => hleast (BitVec.eq_of_toNat_eq h)
      refine ⟨?_, .inl ((Nat.log2_eq_iff (by omega)).mpr (by omega))⟩
      omega

theorem shiftRight_mul (m k j : Nat) :
    ExtendedMantissa.mk (m * 2 ^ k) false false >>> (k + j) =
      ExtendedMantissa.mk m false false >>> j := by
  show Nat.repeat ExtendedMantissa.shiftRightOne (k + j) (.mk (m * 2 ^ k) false false) =
    Nat.repeat ExtendedMantissa.shiftRightOne j (.mk m false false)
  induction j with
  | zero =>
    induction k generalizing m with
    | zero => simp [Nat.repeat]
    | succ k ih =>
      have h := ih (m * 2)
      rw [Nat.mul_assoc, Nat.mul_comm 2, ← Nat.pow_succ] at h
      show ExtendedMantissa.shiftRightOne (Nat.repeat ExtendedMantissa.shiftRightOne (k + 0)
        (.mk (m * 2 ^ (k + 1)) false false)) = _
      rw [h]
      simp [Nat.repeat, ExtendedMantissa.shiftRightOne]
  | succ j ih =>
    show ExtendedMantissa.shiftRightOne (Nat.repeat ExtendedMantissa.shiftRightOne (k + j)
      (.mk (m * 2 ^ k) false false)) = _
    rw [ih]
    rfl

/-- Zeros at the end of a significand do not show in what it is rounded to. -/
theorem roundWithAccuracy_mul {m : Nat} {e : Int} (s : Sign) (hm : 0 < m) (k : Nat)
    (he : e ≤ Format.binary64.targetExponent (totalExponent m e)) :
    roundWithAccuracy Format.binary64 s (m * 2 ^ k) (e - k) .exact =
      roundWithAccuracy Format.binary64 s m e .exact := by
  have hlog : (m * 2 ^ k).log2 = m.log2 + k := by
    rw [← Nat.shiftLeft_eq]
    exact log2_shiftLeft (Nat.ne_of_gt hm) k
  have htotal : totalExponent (m * 2 ^ k) (e - k) = totalExponent m e := by
    rw [totalExponent, totalExponent, hlog]
    omega
  have hshift : shiftToTargetExponent Format.binary64 (m * 2 ^ k) (e - k) .exact =
      shiftToTargetExponent Format.binary64 m e .exact := by
    rw [shiftToTargetExponent, shiftToTargetExponent, htotal]
    generalize Format.binary64.targetExponent (totalExponent m e) = target at he ⊢
    have hamount : (target - (e - k)).toNat = k + (target - e).toNat := by omega
    rw [shiftToExponent, shiftToExponent, hamount]
    refine Prod.ext (shiftRight_mul m k _) ?_
    show e - k + ((k + (target - e).toNat : Nat) : Int) = e + ((target - e).toNat : Int)
    omega
  rw [roundWithAccuracy, roundWithAccuracy, hshift]

/-- A number that unpacking yields rounds to itself. -/
theorem roundWithAccuracy_canonical {m : Nat} {e : Int} (s : Sign) (hm : 0 < m) (he : -1074 ≤ e)
    (hcanonical : m.log2 = 52 ∨ m < 2 ^ 52 ∧ e = -1074) :
    roundWithAccuracy Format.binary64 s m e .exact = .finite s m e hm := by
  have hlog : m.log2 ≤ 52 := by
    rcases hcanonical with h | ⟨h, -⟩
    · exact Nat.le_of_eq h
    · exact Nat.le_of_lt ((Nat.log2_lt (Nat.ne_of_gt hm)).mpr h)
  have hshift : shiftToTargetExponent Format.binary64 m e .exact = (⟨m, false, false⟩, e) := by
    have htarget : Format.binary64.targetExponent (totalExponent m e) =
        max ((m.log2 : Int) + 1 + e - 53) (-1074) := rfl
    have hamount : (Format.binary64.targetExponent (totalExponent m e) - e).toNat = 0 := by omega
    rw [shiftToTargetExponent, shiftToExponent, hamount]
    simp [HShiftRight.hShiftRight, Nat.repeat, ExtendedMantissa.ofMantissaAndAccuracy]
  have hrounded : (ExtendedMantissa.mk m false false).roundedMantissa = m := rfl
  simp only [roundWithAccuracy, hshift, hrounded, dif_neg (Nat.ne_of_gt hm)]

/-! ### Exact operations -/

theorem unpack_two :
    (2.0 : Float).toModel.unpack = .finite .positive (2 ^ 52) (-51) (by decide) := rfl

section

variable {x : Float} {s : Sign} {m : Nat} {e : Int} {h : 0 < m}

theorem le_targetExponent (hx : x.toModel.unpack = .finite s m e h) :
    e ≤ Format.binary64.targetExponent (totalExponent m e) := by
  have htarget : Format.binary64.targetExponent (totalExponent m e) =
      max ((m.log2 : Int) + 1 + e - 53) (-1074) := rfl
  obtain ⟨-, hlog | ⟨-, he⟩⟩ := unpack_canonical hx
  · omega
  · omega

theorem roundWithAccuracy_unpacked (hx : x.toModel.unpack = .finite s m e h) (s' : Sign) (k : Nat) :
    roundWithAccuracy Format.binary64 s' (m * 2 ^ k) (e - k) .exact = .finite s' m e h := by
  obtain ⟨hlow, hcanonical⟩ := unpack_canonical hx
  rw [roundWithAccuracy_mul s' h k (le_targetExponent hx),
    roundWithAccuracy_canonical s' h hlow hcanonical]

end

protected theorem mul_comm (x y : Float) : x * y = y * x := by
  have h (u v : Float.Model.UnpackedFloat) :
      mul Format.binary64 u v = mul Format.binary64 v u := by
    cases u with
    | finite s m e h =>
      cases v with
      | finite s' m' e' h' =>
        rw [mul, mul, Nat.mul_comm, Int.add_comm]
        cases s <;> cases s' <;> rfl
      | notANumber => rfl
      | infinity s' => cases s <;> cases s' <;> rfl
      | zero s' => cases s <;> cases s' <;> rfl
    | notANumber => cases v <;> rfl
    | infinity s => rcases v with s' | _ | s' | s' <;> first | rfl | (cases s <;> cases s' <;> rfl)
    | zero s => rcases v with s' | _ | s' | s' <;> first | rfl | (cases s <;> cases s' <;> rfl)
  show Float.ofModel (.pack (mul Format.binary64 x.toModel.unpack y.toModel.unpack)) = _
  rw [h]
  rfl

/-- The number with the sign `s` as a factor. -/
def signed : Sign → Float.Model.UnpackedFloat → Float.Model.UnpackedFloat
  | .positive, u => u
  | .negative, u => u.neg

/-- Multiplication by one or minus one. -/
theorem mul_unit (x : Float) (s' : Sign) :
    mul Format.binary64 x.toModel.unpack (.finite s' (2 ^ 52) (-52) (by decide)) =
      signed s' x.toModel.unpack := by
  cases hx : x.toModel.unpack with
  | notANumber => cases s' <;> rfl
  | infinity s => cases s <;> cases s' <;> rfl
  | zero s => cases s <;> cases s' <;> rfl
  | finite s m e h =>
    have hsigned : signed s' (.finite s m e h) = .finite (s * s') m e h := by
      cases s <;> cases s' <;> rfl
    rw [hsigned, mul]
    exact roundWithAccuracy_unpacked hx (s * s') 52

protected theorem mul_one (x : Float) : x * 1.0 = x := ofModel_pack (mul_unit x .positive)

protected theorem mul_neg_one (x : Float) : x * -1.0 = -x :=
  congrArg (fun u => Float.ofModel (.pack u)) (mul_unit x .negative)

/-- A quotient by one or minus one has no remainder. -/
theorem divCore_unit {x : Float} {s : Sign} {m : Nat} {e : Int} {h : 0 < m}
    (hx : x.toModel.unpack = .finite s m e h) :
    ∃ k : Nat, divCore Format.binary64 m e (2 ^ 52) (-52) = (m * 2 ^ k, e - k, .exact) := by
  have htarget : Format.binary64.targetExponent (totalExponent m e - totalExponent (2 ^ 52) (-52)) =
      max ((m.log2 : Int) + 1 + e - 1 - 53) (-1074) := rfl
  obtain ⟨k, hk⟩ : ∃ k : Nat, min (e - -52) (Format.binary64.targetExponent
      (totalExponent m e - totalExponent (2 ^ 52) (-52))) = e - k := by
    obtain ⟨hlow, hlog | ⟨hlt, he⟩⟩ := unpack_canonical hx
    · exact ⟨(e - max (e - 1) (-1074)).toNat, by omega⟩
    · have hlog := (Nat.log2_lt (Nat.ne_of_gt h)).mpr hlt
      exact ⟨0, by omega⟩
  have hamount : (e - -52 - (e - (k : Int))).toNat = k + 52 := by omega
  have hshifted : m <<< (k + 52) = m * 2 ^ k * 2 ^ 52 := by
    rw [Nat.shiftLeft_eq, Nat.pow_add, Nat.mul_assoc]
  refine ⟨k, ?_⟩
  rw [divCore]
  simp only [hk, hamount, hshifted]
  rw [Nat.mul_div_cancel _ (by decide), Nat.mul_mod_left]
  rfl

/-- Division by one or minus one. -/
theorem div_unit (x : Float) (s' : Sign) :
    div Format.binary64 x.toModel.unpack (.finite s' (2 ^ 52) (-52) (by decide)) =
      signed s' x.toModel.unpack := by
  cases hx : x.toModel.unpack with
  | notANumber => cases s' <;> rfl
  | infinity s => cases s <;> cases s' <;> rfl
  | zero s => cases s <;> cases s' <;> rfl
  | finite s m e h =>
    have hsigned : signed s' (.finite s m e h) = .finite (s / s') m e h := by
      cases s <;> cases s' <;> rfl
    obtain ⟨k, hk⟩ := divCore_unit hx
    rw [hsigned, div, hk]
    exact roundWithAccuracy_unpacked hx (s / s') k

protected theorem div_one (x : Float) : x / 1.0 = x := ofModel_pack (div_unit x .positive)

protected theorem div_neg_one (x : Float) : x / -1.0 = -x :=
  congrArg (fun u => Float.ofModel (.pack u)) (div_unit x .negative)

theorem le_targetExponent_double {x : Float} {s : Sign} {m : Nat} {e : Int} {h : 0 < m}
    (hx : x.toModel.unpack = .finite s m e h) :
    e ≤ Format.binary64.targetExponent (totalExponent (m * 2) e) := by
  have hlog : (m * 2).log2 = m.log2 + 1 := by
    rw [← Nat.pow_one 2, ← Nat.shiftLeft_eq]
    exact log2_shiftLeft (Nat.ne_of_gt h) 1
  have htarget : Format.binary64.targetExponent (totalExponent (m * 2) e) =
      max (((m * 2).log2 : Int) + 1 + e - 53) (-1074) := rfl
  have htarget' : Format.binary64.targetExponent (totalExponent m e) =
      max ((m.log2 : Int) + 1 + e - 53) (-1074) := rfl
  have hle := le_targetExponent hx
  omega

/-- The sum of a number and itself is the double of its significand, rounded. -/
theorem normalize_double {x : Float} {s : Sign} {m : Nat} {e : Int} {h : 0 < m}
    (hx : x.toModel.unpack = .finite s m e h) :
    Float.Model.UnpackedFloat.normalize Format.binary64 (s.apply m + s.apply m) e .positive =
      roundWithAccuracy Format.binary64 s (m * 2) e .exact := by
  have hround (s : Sign) : Float.Model.UnpackedFloat.round Format.binary64 s (m * 2) e =
      roundWithAccuracy Format.binary64 s (m * 2) e .exact := by
    have hle := le_targetExponent_double hx
    have hamount :
        (e - Format.binary64.targetExponent (totalExponent (m * 2) e)).toNat = 0 := by omega
    rw [Float.Model.UnpackedFloat.round]
    simp only [decreaseExponent, hamount, Nat.shiftLeft_zero, Int.natCast_zero, Int.sub_zero]
  cases s with
  | positive =>
    have hsum : Sign.positive.apply (m : Int) + Sign.positive.apply m = (m * 2 : Nat) := by
      show (m : Int) + m = _
      omega
    have hcompare : compare ((m * 2 : Nat) : Int) 0 = .gt := compare_gt_iff_gt.mpr (by omega)
    rw [hsum, Float.Model.UnpackedFloat.normalize, hcompare]
    exact hround .positive
  | negative =>
    have hsum : Sign.negative.apply (m : Int) + Sign.negative.apply m = -(m * 2 : Nat) := by
      show -(m : Int) + -m = _
      omega
    have hcompare : compare (-((m * 2 : Nat) : Int)) 0 = .lt := compare_lt_iff_lt.mpr (by omega)
    rw [hsum, Float.Model.UnpackedFloat.normalize, hcompare]
    simp only [Int.neg_neg, Int.toNat_natCast]
    exact hround .negative

protected theorem two_mul (x : Float) : 2.0 * x = x + x := by
  show Float.ofModel (.pack (mul Format.binary64 (2.0 : Float).toModel.unpack x.toModel.unpack)) =
    Float.ofModel (.pack (add Format.binary64 x.toModel.unpack x.toModel.unpack))
  refine congrArg (fun u => Float.ofModel (.pack u)) ?_
  rw [unpack_two]
  cases hx : x.toModel.unpack with
  | notANumber => rfl
  | infinity s => cases s <;> rfl
  | zero s => cases s <;> rfl
  | finite s m e h =>
    have hs : .positive * s = s := by cases s <;> rfl
    have hproduct : 2 ^ 52 * m = m * 2 * 2 ^ 51 := by omega
    have hexponent : -51 + e = e - (51 : Nat) := by omega
    have hleft : mul Format.binary64 (.finite .positive (2 ^ 52) (-51) (by decide))
        (.finite s m e h) = roundWithAccuracy Format.binary64 s (m * 2) e .exact := by
      rw [mul, hs, hproduct, hexponent,
        roundWithAccuracy_mul s (Nat.mul_pos h (by decide)) 51 (le_targetExponent_double hx)]
    rw [hleft, ← normalize_double hx, add]
    simp [decreaseExponent]

/-! ### Numbers that differ in the sign of zero -/

/-- The numbers are the same, but for the sign of zero. -/
def Alike (x y : Float) : Prop := x = y ∨ (x == 0.0) = true ∧ (y == 0.0) = true

/-- The same of unpacked numbers. -/
def AlikeUnpacked (u v : Float.Model.UnpackedFloat) : Prop :=
  u = v ∨ ∃ s s', u = .zero s ∧ v = .zero s'

theorem alikeUnpacked_zero (s s' : Sign) : AlikeUnpacked (.zero s) (.zero s') :=
  .inr ⟨s, s', rfl, rfl⟩

theorem unpack_eq_zero {x : Float} (hx : (x == 0.0) = true) :
    ∃ s, x.toModel.unpack = .zero s := by
  rcases eq_zero_or_of_beq hx with rfl | rfl
  · exact ⟨.positive, rfl⟩
  · exact ⟨.negative, rfl⟩

theorem AlikeUnpacked.pack {u v : Float.Model.UnpackedFloat} (h : AlikeUnpacked u v) :
    Alike (Float.ofModel (.pack u)) (Float.ofModel (.pack v)) := by
  rcases h with rfl | ⟨s, s', rfl, rfl⟩
  · exact .inl rfl
  · refine .inr ⟨?_, ?_⟩
    · cases s <;> decide
    · cases s' <;> decide

namespace Alike

variable {x x' y y' z : Float}

protected theorem refl (x : Float) : Alike x x := .inl rfl

theorem of_eq (h : x = y) : Alike x y := .inl h

protected theorem symm (h : Alike x y) : Alike y x := h.imp Eq.symm And.symm

protected theorem trans (h : Alike x y) (h' : Alike y z) : Alike x z := by
  rcases h with rfl | ⟨hx, hy⟩
  · exact h'
  · rcases h' with rfl | ⟨-, hz⟩
    · exact .inr ⟨hx, hy⟩
    · exact .inr ⟨hx, hz⟩

theorem isFinite (h : Alike x y) (hy : y.isFinite) : x.isFinite := by
  rcases h with rfl | ⟨hx, -⟩
  · exact hy
  · rcases eq_zero_or_of_beq hx with rfl | rfl
    · decide
    · decide

theorem unpack (h : Alike x y) : AlikeUnpacked x.toModel.unpack y.toModel.unpack := by
  rcases h with rfl | ⟨hx, hy⟩
  · exact .inl rfl
  · obtain ⟨s, hs⟩ := unpack_eq_zero hx
    obtain ⟨s', hs'⟩ := unpack_eq_zero hy
    exact .inr ⟨s, s', hs, hs'⟩

/-- Numbers that compare as equal. -/
theorem of_beq (h : (x == y) = true) : Alike x y := by
  have hcompare : x.toModel.unpack.compare y.toModel.unpack = some .eq := beq_iff_eq.mp h
  suffices hu : AlikeUnpacked x.toModel.unpack y.toModel.unpack by
    have halike := hu.pack
    rwa [ofModel_pack rfl, ofModel_pack rfl] at halike
  unfold AlikeUnpacked
  generalize x.toModel.unpack = u at hcompare
  generalize y.toModel.unpack = v at hcompare
  rcases u with (_ | _) | _ | s | ⟨_ | _, m, e, hm⟩ <;>
    rcases v with (_ | _) | _ | s' | ⟨_ | _, m', e', hm'⟩ <;>
      simp_all [Float.Model.UnpackedFloat.compare, Ordering.then_eq_eq]

theorem eq_one_of_beq (h : (x == 1.0) = true) : x = 1.0 :=
  (of_beq h).resolve_right fun hzero => absurd hzero.2 (by decide)

section

variable (op : Float.Model.UnpackedFloat → Float.Model.UnpackedFloat → Float.Model.UnpackedFloat)

theorem left (hop : ∀ v s s', AlikeUnpacked (op (.zero s) v) (op (.zero s') v)) (h : Alike x x')
    (y : Float) : Alike (Float.ofModel (.pack (op x.toModel.unpack y.toModel.unpack)))
      (Float.ofModel (.pack (op x'.toModel.unpack y.toModel.unpack))) := by
  refine AlikeUnpacked.pack ?_
  rcases h.unpack with hu | ⟨s, s', hs, hs'⟩
  · exact .inl (by rw [hu])
  · rw [hs, hs']
    exact hop _ s s'

theorem right (hop : ∀ u s s', AlikeUnpacked (op u (.zero s)) (op u (.zero s'))) (x : Float)
    (h : Alike y y') : Alike (Float.ofModel (.pack (op x.toModel.unpack y.toModel.unpack)))
      (Float.ofModel (.pack (op x.toModel.unpack y'.toModel.unpack))) :=
  left (fun u v => op v u) hop h x

end

protected theorem add (h : Alike x x') (h' : Alike y y') : Alike (x + y) (x' + y') := by
  refine (left (add Format.binary64) (fun v s s' => ?_) h y).trans
    (right (add Format.binary64) (fun u s s' => ?_) x' h')
  · cases v with
    | zero t => cases s <;> cases s' <;> cases t <;> exact alikeUnpacked_zero _ _
    | _ => exact .inl rfl
  · cases u with
    | zero t => cases s <;> cases s' <;> cases t <;> exact alikeUnpacked_zero _ _
    | _ => exact .inl rfl

protected theorem sub (h : Alike x x') (h' : Alike y y') : Alike (x - y) (x' - y') := by
  refine (left (sub Format.binary64) (fun v s s' => ?_) h y).trans
    (right (sub Format.binary64) (fun u s s' => ?_) x' h')
  · cases v with
    | zero t => cases s <;> cases s' <;> cases t <;> exact alikeUnpacked_zero _ _
    | _ => exact .inl rfl
  · cases u with
    | zero t => cases s <;> cases s' <;> cases t <;> exact alikeUnpacked_zero _ _
    | _ => exact .inl rfl

protected theorem mul (h : Alike x x') (h' : Alike y y') : Alike (x * y) (x' * y') := by
  refine (left (mul Format.binary64) (fun v s s' => ?_) h y).trans
    (right (mul Format.binary64) (fun u s s' => ?_) x' h')
  · cases v with
    | infinity t => exact .inl rfl
    | notANumber => exact .inl rfl
    | _ => exact alikeUnpacked_zero _ _
  · cases u with
    | infinity t => exact .inl rfl
    | notANumber => exact .inl rfl
    | _ => exact alikeUnpacked_zero _ _

/-- The divisor may not be replaced: it gives an infinite quotient its sign. -/
protected theorem div (h : Alike x x') (y : Float) : Alike (x / y) (x' / y) := by
  refine left (div Format.binary64) (fun v s s' => ?_) h y
  cases v with
  | notANumber => exact .inl rfl
  | zero t => exact .inl rfl
  | _ => exact alikeUnpacked_zero _ _

end Alike

theorem alike_of_unpacked {u : Float.Model.UnpackedFloat} {x : Float}
    (h : AlikeUnpacked u x.toModel.unpack) : Alike (Float.ofModel (.pack u)) x := by
  have halike := h.pack
  rwa [ofModel_pack rfl] at halike

theorem alike_add_zero (x : Float) : Alike (x + 0.0) x := by
  refine alike_of_unpacked ?_
  show AlikeUnpacked (add Format.binary64 x.toModel.unpack (.zero .positive)) _
  cases x.toModel.unpack with
  | zero s => cases s <;> exact alikeUnpacked_zero _ _
  | _ => exact .inl rfl

theorem alike_zero_add (x : Float) : Alike (0.0 + x) x := by
  refine alike_of_unpacked ?_
  show AlikeUnpacked (add Format.binary64 (.zero .positive) x.toModel.unpack) _
  cases x.toModel.unpack with
  | zero s => cases s <;> exact alikeUnpacked_zero _ _
  | _ => exact .inl rfl

theorem alike_sub_zero (x : Float) : Alike (x - 0.0) x := by
  refine alike_of_unpacked ?_
  show AlikeUnpacked (sub Format.binary64 x.toModel.unpack (.zero .positive)) _
  cases x.toModel.unpack with
  | zero s => cases s <;> exact alikeUnpacked_zero _ _
  | _ => exact .inl rfl

theorem alike_zero_sub (x : Float) : Alike (0.0 - x) (-x) := by
  refine AlikeUnpacked.pack ?_
  show AlikeUnpacked (sub Format.binary64 (.zero .positive) x.toModel.unpack) x.toModel.unpack.neg
  cases x.toModel.unpack with
  | zero s => cases s <;> exact alikeUnpacked_zero _ _
  | _ => exact .inl rfl

/-- The product of a finite number and zero is zero. -/
theorem alike_mul_zero {x : Float} (hx : x.isFinite) : Alike (x * 0.0) 0.0 := by
  have hx : x.toModel.unpack.isFinite = true := hx
  have h : AlikeUnpacked (mul Format.binary64 x.toModel.unpack (.zero .positive))
      (.zero .positive) := by
    cases hu : x.toModel.unpack with
    | infinity s =>
      rw [hu] at hx
      cases hx
    | notANumber =>
      rw [hu] at hx
      cases hx
    | _ => exact alikeUnpacked_zero _ _
  exact h.pack

theorem alike_zero_mul {x : Float} (hx : x.isFinite) : Alike (0.0 * x) 0.0 := by
  rw [Binary64.mul_comm]
  exact alike_mul_zero hx

end FractalFormula.Binary64
