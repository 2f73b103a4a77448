import Mathlib
import FractalFormula.Tree.Parser

/-!
# Runs of characters

Names and digits are read as longest runs of a class of characters. A run is read back
exactly when the text behind it does not go on with the class, which is what `Stops` says.
The classes that matter here are kept apart by `startsName_of_isDigit` and
`inName_of_isBlank`.
-/

namespace FractalFormula.Text

/-- The text does not start with a character of the class `p`. -/
def Stops (p : Char → Bool) (rest : List Char) : Prop := ∀ c ∈ rest.head?, p c = false

@[simp] theorem stops_nil (p : Char → Bool) : Stops p [] := by simp [Stops]

@[simp] theorem stops_cons {p : Char → Bool} {c : Char} {rest : List Char} :
    Stops p (c :: rest) ↔ p c = false := by simp [Stops]

/-- It is enough to look through the characters that the text may start with. -/
theorem stops_of_all {p : Char → Bool} {allowed rest : List Char}
    (hall : allowed.all fun c => !p c) (h : ∀ c ∈ rest.head?, c ∈ allowed) : Stops p rest := by
  intro c hc
  have hp := List.all_eq_true.mp hall c (h c hc)
  simpa using hp

theorem takeWhile_append_of_stops {p : Char → Bool} {run rest : List Char} (h : ∀ c ∈ run, p c)
    (hr : Stops p rest) : (run ++ rest).takeWhile p = run := by
  rw [List.takeWhile_append_of_pos h]
  cases rest with
  | nil => simp
  | cons c rest => simp [stops_cons.mp hr]

theorem dropWhile_append_of_stops {p : Char → Bool} {run rest : List Char} (h : ∀ c ∈ run, p c)
    (hr : Stops p rest) : (run ++ rest).dropWhile p = rest := by
  rw [List.dropWhile_append_of_pos h]
  cases rest with
  | nil => simp
  | cons c rest => simp [stops_cons.mp hr]

/-- Two runs before texts that do not go on with them are the same run before the same text. -/
theorem run_append_inj {p : Char → Bool} {run run' rest rest' : List Char} (h : ∀ c ∈ run, p c)
    (h' : ∀ c ∈ run', p c) (hr : Stops p rest) (hr' : Stops p rest')
    (eq : run ++ rest = run' ++ rest') : run = run' ∧ rest = rest' := by
  constructor
  · rw [← takeWhile_append_of_stops h hr, eq, takeWhile_append_of_stops h' hr']
  · rw [← dropWhile_append_of_stops h hr, eq, dropWhile_append_of_stops h' hr']

end FractalFormula.Text

namespace FractalFormula.Parser

open Text

/-! ### Classes of characters -/

theorem isDigit_iff {c : Char} : c.isDigit ↔ 48 ≤ c.toNat ∧ c.toNat ≤ 57 := by
  simp only [Char.isDigit, Bool.and_eq_true, decide_eq_true_eq, ge_iff_le, UInt32.le_iff_toNat_le]
  rfl

theorem inName_of_startsName {c : Char} (h : startsName c) : inName c := by
  simp only [startsName, inName, isAlphanumeric, Bool.or_eq_true] at h ⊢
  rcases h with h | h
  · exact Or.inl (Or.inl h)
  · exact Or.inr h

/-- A number does not start like a name. -/
theorem startsName_of_isDigit {c : Char} (h : c.isDigit) : startsName c = false := by
  obtain ⟨h₁, h₂⟩ := isDigit_iff.mp h
  have hne : c ≠ '_' := by
    rintro rfl
    exact absurd h₂ (by decide)
  simp only [startsName, isAlphabetic, if_pos (show c.toNat < 128 by omega), hne, decide_false,
    Bool.or_false, Char.isAlpha, Char.isUpper, Char.isLower, ge_iff_le, UInt32.le_iff_toNat_le]
  have : c.toNat = c.val.toNat := rfl
  have : 'A'.val.toNat = 65 := rfl
  have : 'a'.val.toNat = 97 := rfl
  simp only [Bool.or_eq_false_iff, Bool.and_eq_false_iff, decide_eq_false_iff_not]
  omega

/-- A blank does not stand in a name. -/
theorem inName_of_isBlank {c : Char} (h : isBlank c) : inName c = false := by
  have hall : ∀ n ∈ [0x20, 0x9, 0xa, 0xb, 0xc, 0xd, 0x85, 0xa0, 0x1680, 0x2000, 0x2001, 0x2002,
      0x2003, 0x2004, 0x2005, 0x2006, 0x2007, 0x2008, 0x2009, 0x200a, 0x2028, 0x2029, 0x202f,
      0x205f, 0x3000], inName (Char.ofNat n) = false := by decide +kernel
  rw [← Char.ofNat_toNat c]
  apply hall
  simp only [isBlank, Bool.or_eq_true, Bool.and_eq_true, beq_iff_eq, decide_eq_true_eq] at h
  simp only [List.mem_cons, List.not_mem_nil, or_false]
  omega

theorem isBlank_of_isDigit {c : Char} (h : c.isDigit) : isBlank c = false := by
  obtain ⟨h₁, h₂⟩ := isDigit_iff.mp h
  rw [isBlank, Bool.eq_false_iff]
  simp only [ne_eq, Bool.or_eq_true, Bool.and_eq_true, beq_iff_eq, decide_eq_true_eq]
  omega

end FractalFormula.Parser
