import Mathlib
import FractalFormula.Text.Order

/-!
# The order of texts in their bytes

Of two characters, the one with the smaller code point has the smaller byte where their UTF-8
encodings first differ, and neither encoding is the beginning of the other
(`compare_utf8EncodeChar_append`). So texts stand as their bytes do in a dictionary of bytes
(`order_eq_compare_bytes`), and their order has the laws of an order of lists.
-/

namespace FractalFormula.Text

/-- The UTF-8 bytes of a text. -/
def bytes (s : String) : List UInt8 := s.toUTF8.data.toList

theorem bytes_eq_flatMap (s : String) : bytes s = s.toList.flatMap String.utf8EncodeChar := by
  rw [bytes, String.toUTF8, ← String.utf8Encode_toList, List.utf8Encode, List.data_toByteArray]

theorem bytes_inj {s t : String} : bytes s = bytes t ↔ s = t := by
  rw [bytes, bytes, Array.toList_inj, ← ByteArray.ext_iff]
  exact String.toByteArray_inj

/-! ### One character -/

theorem compare_ofNat_cons_eq_lt_iff {x y : Nat} {s t : List UInt8} (hx : x < 256) (hy : y < 256) :
    compare (UInt8.ofNat x :: s) (UInt8.ofNat y :: t) = .lt ↔
      x < y ∨ x = y ∧ compare s t = .lt := by
  rw [List.compare_cons_cons, Ordering.then_eq_lt, Std.compare_eq_lt, Std.compare_eq_iff_eq,
    UInt8.lt_iff_toNat_lt, ← UInt8.toNat_inj, UInt8.toNat_ofNat_of_lt' hx,
    UInt8.toNat_ofNat_of_lt' hy]

theorem toNat_val_lt (c : Char) : c.val.toNat < 1114112 := by
  obtain h | h := c.valid
  · exact h.trans (by decide)
  · exact h.2

theorem compare_utf8EncodeChar_append {a b : Char} (h : a.toNat < b.toNat) (s t : List UInt8) :
    compare (String.utf8EncodeChar a ++ s) (String.utf8EncodeChar b ++ t) = .lt := by
  have ha := toNat_val_lt a
  have hb := toNat_val_lt b
  rw [← Char.toNat_val, ← Char.toNat_val] at h
  simp only [String.utf8EncodeChar]
  generalize a.val.toNat = m at h ha ⊢
  generalize b.val.toNat = n at h hb ⊢
  -- Encodings of one length differ first in the first group of six bits that differs.
  have h₁ : m / 64 < n / 64 ∨ m / 64 = n / 64 ∧ m % 64 < n % 64 := by omega
  have h₂ : m / 64 < n / 64 →
      m / 4096 < n / 4096 ∨ m / 4096 = n / 4096 ∧ m / 64 % 64 < n / 64 % 64 := by omega
  have h₃ : m / 4096 < n / 4096 →
      m / 262144 < n / 262144 ∨ m / 262144 = n / 262144 ∧ m / 4096 % 64 < n / 4096 % 64 := by omega
  split_ifs <;>
    simp (disch := omega) only [List.cons_append, List.nil_append, compare_ofNat_cons_eq_lt_iff,
      Nat.mod_eq_of_lt] <;>
    omega

theorem compare_append_append (common s t : List UInt8) :
    compare (common ++ s) (common ++ t) = compare s t := by
  induction common with
  | nil => rfl
  | cons a common ih =>
    rw [List.cons_append, List.cons_append, List.compare_cons_cons, Std.ReflOrd.compare_self, ih]
    rfl

/-! ### Whole texts -/

theorem compare_nil_flatMap (c : Char) (s : List Char) :
    compare [] ((c :: s).flatMap String.utf8EncodeChar) = .lt := by
  obtain ⟨first, more, h⟩ := List.exists_cons_of_ne_nil (String.utf8EncodeChar_ne_nil (c := c))
  rw [List.flatMap_cons, h, List.cons_append, List.compare_nil_cons]

theorem order_eq_compare (s t : List Char) :
    order s t = compare (s.flatMap String.utf8EncodeChar) (t.flatMap String.utf8EncodeChar) := by
  induction s generalizing t with
  | nil =>
    cases t with
    | nil => rfl
    | cons b t => exact (compare_nil_flatMap b t).symm
  | cons a s ih =>
    cases t with
    | nil =>
      rw [List.flatMap_nil, Std.OrientedOrd.eq_swap, compare_nil_flatMap]
      rfl
    | cons b t =>
      simp only [order, List.flatMap_cons]
      split
      next h => exact (compare_utf8EncodeChar_append h _ _).symm
      next h =>
        split
        next h' =>
          rw [Std.OrientedOrd.eq_swap, compare_utf8EncodeChar_append h']
          rfl
        next h' =>
          obtain rfl : a = b := Char.toNat_inj.mp (by omega)
          rw [compare_append_append, ih]

/-- Texts stand as their bytes do. -/
theorem order_eq_compare_bytes (s t : String) :
    order s.toList t.toList = compare (bytes s) (bytes t) := by
  rw [bytes_eq_flatMap, bytes_eq_flatMap, order_eq_compare]

theorem order_eq_lt_of_lt_of_ne_gt {s t u : List Char} (hst : order s t = .lt)
    (htu : order t u ≠ .gt) : order s u = .lt := by
  rw [order_eq_compare] at hst htu ⊢
  exact Std.TransCmp.lt_of_lt_of_isLE hst (Ordering.isLE_iff_ne_gt.mpr htu)

end FractalFormula.Text
