import FractalFormula.Decimal.Layout
import FractalFormula.Proofs.Decimal.Nearest
import FractalFormula.Proofs.Decimal.Sign
import FractalFormula.Proofs.Parser.Literal

/-!
# Decimal text is read back

The text of a finite number is a literal behind a minus sign or none, and the literal is read as
a decimal that is rounded to the number (`plain_spec`, `literal_spec`). Reading back the text of
a decimal gives the decimal itself or one with zeros put on the end of its coefficient, which
lies in the same interval.
-/

namespace FractalFormula.Decimal

open Literal
open Binary64 (Canonical infinityBits)

/-! ### Digits -/

theorem isRun_digits (n : Nat) : IsRun (digits n) :=
  fun _ hc => Nat.isDigit_of_mem_toDigits (by decide) (by decide) hc

theorem digits_ne_nil (n : Nat) : digits n ≠ [] := Nat.toDigits_ne_nil

theorem ofDigits_eq (start : Nat) (ds : List Char) :
    ofDigits start ds = Nat.ofDigitChars 10 ds start := rfl

theorem ofDigits_digits (n : Nat) : ofDigits 0 (digits n) = n := Nat.ofDigitChars_ten_toDigits

theorem ofDigits_append (start : Nat) (ds es : List Char) :
    ofDigits start (ds ++ es) = ofDigits (ofDigits start ds) es := by
  simp only [ofDigits, List.foldl_append]

theorem ofDigits_zeros (start n : Nat) :
    ofDigits start (List.replicate n '0') = start * 10 ^ n := by
  rw [ofDigits_eq, Nat.ofDigitChars_replicate_zero, Nat.mul_comm]

theorem isRun_zeros (n : Nat) : IsRun (List.replicate n '0') := by
  intro c hc
  rw [(List.mem_replicate.mp hc).2]
  decide

/-! ### Styles -/

/-- The text is a literal for `d`, perhaps with zeros put on the end of its coefficient. -/
def Writes (text : List Char) (d : Decimal) : Prop :=
  IsLiteral text ∧ ∃ j : Nat, read? text = some ⟨d.coefficient * 10 ^ j, d.exponent - j⟩

theorem writes_withPoint (c places : Nat) : Writes (withPoint (digits c) places) ⟨c, -places⟩ := by
  have hd := isRun_digits c
  rw [withPoint]
  split
  · next hlt =>
    have hwhole : IsRun ((digits c).take ((digits c).length - places)) :=
      fun x hx => hd x (List.mem_of_mem_take hx)
    have hfraction : IsRun ((digits c).drop ((digits c).length - places)) :=
      fun x hx => hd x (List.mem_of_mem_drop hx)
    have hne : (digits c).take ((digits c).length - places) ≠ [] := by
      rw [Ne, List.take_eq_nil_iff]
      have := digits_ne_nil c
      simp only [this, or_false]
      omega
    refine ⟨⟨_, [], .point hwhole hne hfraction, .absent, (List.append_nil _).symm⟩, 0, ?_⟩
    have hread := read?_point hwhole hfraction (Or.inl hne) .absent rfl
    rw [List.append_nil] at hread
    rw [hread, ← ofDigits_append, List.take_append_drop, ofDigits_digits, List.length_drop]
    simp only [Option.some.injEq, Decimal.mk.injEq]
    omega
  · next hle =>
    have hzero : IsRun ['0'] := isRun_zeros 1
    have hfraction := (isRun_zeros (places - (digits c).length)).append hd
    refine ⟨⟨_, [], .point hzero (by simp) hfraction, .absent, (List.append_nil _).symm⟩, 0, ?_⟩
    have hread := read?_point hzero hfraction (Or.inl (by simp)) .absent rfl
    rw [List.append_nil] at hread
    have hstart : ofDigits 0 ['0'] = 0 := rfl
    refine hread.trans ?_
    rw [hstart, ofDigits_append, ofDigits_zeros, Nat.zero_mul, ofDigits_digits,
      List.length_append, List.length_replicate]
    simp only [Option.some.injEq, Decimal.mk.injEq]
    omega

/-- What follows a whole number in either style. -/
def WholeEnd (s : List Char) : Prop := s = [] ∨ s = ['.', '0']

theorem writes_setPositional {wholeEnd : List Char} (hend : WholeEnd wholeEnd) (d : Decimal) :
    Writes (setPositional wholeEnd d) d := by
  obtain ⟨c, e⟩ := d
  simp only [setPositional]
  split
  · next he =>
    have he : 0 ≤ e := he
    have hrun := (isRun_digits c).append (isRun_zeros e.toNat)
    have hne : digits c ++ List.replicate e.toNat '0' ≠ [] :=
      List.append_ne_nil_of_left_ne_nil (digits_ne_nil c) _
    have hvalue : ofDigits 0 (digits c ++ List.replicate e.toNat '0') = c * 10 ^ e.toNat := by
      rw [ofDigits_append, ofDigits_digits, ofDigits_zeros]
    obtain rfl | rfl := hend
    · refine ⟨⟨_, [], .whole hrun hne, .absent, rfl⟩, e.toNat, ?_⟩
      rw [read?_whole hrun hne .absent rfl, hvalue]
      simp only [Option.some.injEq, Decimal.mk.injEq, true_and]
      omega
    · have hzero : IsRun ['0'] := isRun_zeros 1
      refine ⟨⟨_, [], .point hrun hne hzero, .absent, (List.append_nil _).symm⟩, e.toNat + 1, ?_⟩
      refine (read?_point hrun hzero (Or.inl hne) .absent rfl).trans ?_
      have hlast : ∀ n, ofDigits n ['0'] = n * 10 ^ 1 := fun n => ofDigits_zeros n 1
      rw [hvalue, hlast, Nat.mul_assoc, ← Nat.pow_add]
      simp only [Option.some.injEq, Decimal.mk.injEq, List.length_singleton, true_and]
      omega
  · next he =>
    have he : ¬0 ≤ e := he
    have hplaces : (-((-e).toNat : Nat) : Int) = e := by omega
    have h := writes_withPoint c (-e).toNat
    rwa [hplaces] at h

theorem isExponent_setInt (e : Int) :
    IsExponent ('e' :: setInt e) ∧ readExponent? ('e' :: setInt e) = some e := by
  rw [setInt]
  split
  · next he =>
    have hrun := isRun_digits (-e).toNat
    have hne := digits_ne_nil (-e).toNat
    refine ⟨.present (s := ['-']) (Or.inl rfl) (Or.inr (Or.inr rfl)) hrun hne, ?_⟩
    refine (readExponent?_eq (s := ['-']) (Or.inl rfl) (Or.inr (Or.inr rfl)) hrun hne).trans ?_
    rw [if_pos rfl, ofDigits_digits, Option.some.injEq]
    omega
  · next he =>
    have hrun := isRun_digits e.toNat
    have hne := digits_ne_nil e.toNat
    refine ⟨.present (s := []) (Or.inl rfl) (Or.inl rfl) hrun hne, ?_⟩
    refine (readExponent?_eq (s := []) (Or.inl rfl) (Or.inl rfl) hrun hne).trans ?_
    rw [if_neg (by simp), ofDigits_digits, Option.some.injEq]
    omega

theorem writes_setScientific (d : Decimal) :
    Writes (setScientific (digits d.coefficient) d.order) d := by
  obtain ⟨c, e⟩ := d
  obtain ⟨hexp, hread⟩ := isExponent_setInt (order ⟨c, e⟩)
  have hd := isRun_digits c
  have hvalue := ofDigits_digits c
  simp only [setScientific, order] at hexp hread ⊢
  obtain ⟨h, t, ht⟩ := List.exists_cons_of_ne_nil (digits_ne_nil c)
  rw [ht] at hd hvalue hexp hread ⊢
  simp only [List.take_succ_cons, List.take_zero, List.drop_succ_cons, List.drop_zero,
    List.length_cons] at hexp hread ⊢
  have hfirst : IsRun [h] := by simpa [IsRun] using hd.cons.1
  cases t with
  | nil =>
    refine ⟨⟨_, _, .whole hfirst (by simp), hexp, rfl⟩, 0, ?_⟩
    refine (read?_whole hfirst (by simp) hexp hread).trans ?_
    rw [hvalue]
    simp
  | cons t ts =>
    have hpoint := IsMantissa.point hfirst (by simp) hd.cons.2
    refine ⟨⟨_, _, hpoint, hexp, by simp⟩, 0, ?_⟩
    refine (read?_point hfirst hd.cons.2 (Or.inl (by simp)) hexp hread).trans ?_
    rw [← ofDigits_append, List.singleton_append, hvalue]
    simp only [Option.some.injEq, Decimal.mk.injEq, List.length_cons]
    omega

theorem Style.writes_set {s : Style} (hs : WholeEnd s.wholeEnd) (d : Decimal) :
    Writes (s.set d) d := by
  rw [Style.set]
  split
  · exact writes_setPositional hs d
  · exact writes_setScientific d

/-! ### Numbers -/

/-- The text of a magnitude. -/
def Style.magnitude (s : Style) (m k : Nat) : List Char :=
  if m = 0 then '0' :: s.wholeEnd else s.set (shortest m k)

/-- The text of a magnitude is a literal that is read as the magnitude. -/
theorem Style.read?_magnitude {s : Style} (hs : WholeEnd s.wholeEnd) {m k : Nat}
    (hcan : Canonical m k) :
    IsLiteral (s.magnitude m k) ∧
      ∃ d, read? (s.magnitude m k) = some d ∧ d.toBits = k * 2 ^ 52 + m := by
  rw [magnitude]
  split
  · next hm =>
    have hk : k * 2 ^ 52 + m = 0 := by
      simp only [Canonical] at hcan
      omega
    have hzero : IsRun ['0'] := isRun_zeros 1
    rw [hk]
    obtain hend | hend := hs
    · rw [hend]
      exact ⟨⟨['0'], [], .whole hzero (by simp), .absent, rfl⟩, ⟨0, 0⟩, rfl, rfl⟩
    · rw [hend]
      exact ⟨⟨_, [], .point hzero (by simp) hzero, .absent, rfl⟩, ⟨0, -1⟩, rfl, rfl⟩
  · next hm =>
    obtain ⟨hlit, j, hread⟩ := Style.writes_set hs (shortest m k)
    refine ⟨hlit, _, hread, toBits_of_readsAs hcan hm ?_⟩
    exact (readsAs_shift m k _ j _).mpr (readsAs_shortest hm)

/-- A finite number is written as its magnitude behind its sign. -/
theorem Style.write_finite (s : Style) {x : Float}
    (hx : x.toBits.toNat % 2 ^ 63 < infinityBits) :
    ∃ negative m k, s.write x = signed negative (s.magnitude m k) ∧ Canonical m k ∧
      Binary64.toFloat negative (k * 2 ^ 52 + m) = x ∧
      (negative = true ↔ 2 ^ 63 ≤ x.toBits.toNat) := by
  obtain ⟨negative, m, k, hparts, hcan, hvalue, hsign⟩ := Binary64.ofFloat_finite hx
  refine ⟨negative, m, k, ?_, hcan, hvalue.symm, hsign⟩
  rw [Style.write, hparts]
  rfl

/-- The plain text of a number without a sign bit is a literal that stands for the number. -/
theorem plain_spec {x : Float} (hx : x.toBits.toNat < infinityBits) :
    IsLiteral (plain x) ∧ Literal.value? (plain x) = some x := by
  have hinf : infinityBits = 2047 * 2 ^ 52 := rfl
  obtain ⟨negative, m, k, htext, hcan, hvalue, hsign⟩ :=
    Style.plain.write_finite (x := x) (by omega)
  obtain rfl : negative = false := by
    cases negative with
    | false => rfl
    | true =>
      have := hsign.mp rfl
      omega
  obtain ⟨hlit, d, hread, hbits⟩ := Style.plain.read?_magnitude (Or.inl rfl) hcan
  rw [plain, htext, signed, if_neg (by decide)]
  refine ⟨hlit, ?_⟩
  rw [Literal.value?, hread, Option.bind_some, if_pos (hbits ▸ hcan.lt_infinityBits), toFloat,
    hbits, hvalue]

/-- A number below zero is written as its negation behind a minus sign. -/
theorem plain_of_lt_zero {x : Float} (hx : x.isFinite) (hneg : x < 0.0) :
    plain x = '-' :: plain (-x) := by
  obtain ⟨m, k, hparts, hparts'⟩ := Binary64.ofFloat_neg hx hneg
  rw [plain, Style.write, hparts, plain, Style.write, hparts']
  rfl

/-- The literal style shows that a number is not whole, even if it is. -/
theorem Style.mem_magnitude {s : Style} (hs : s.wholeEnd = ['.', '0']) (m k : Nat) :
    '.' ∈ s.magnitude m k ∨ 'e' ∈ s.magnitude m k := by
  rw [magnitude]
  split
  · rw [hs]
    exact Or.inl (by decide)
  · rw [set]
    split
    · refine Or.inl ?_
      rw [setPositional, hs]
      split
      · simp
      · rw [withPoint]
        split <;> simp
    · refine Or.inr ?_
      simp [setScientific]

/-- The literal text of a finite number is a literal with a point or an exponent behind a minus
sign or none, and is read back as the number. -/
theorem literal_spec {x : Float} (hx : x.isFinite) :
    ∃ negative text, literal x = signed negative text ∧ IsLiteral text ∧
      ('.' ∈ text ∨ 'e' ∈ text) ∧ readFloat? (literal x) = some x := by
  obtain ⟨negative, m, k, htext, hcan, hvalue, -⟩ :=
    Style.literal.write_finite ((Binary64.isFinite_iff x).mp hx)
  obtain ⟨hlit, d, hread, hbits⟩ := Style.literal.read?_magnitude (Or.inr rfl) hcan
  refine ⟨negative, _, htext, hlit, Style.mem_magnitude rfl m k, ?_⟩
  rw [literal, htext]
  rw [← hbits] at hvalue
  generalize Style.literal.magnitude m k = text at hlit hread
  obtain ⟨c, cs, rfl, hc⟩ := hlit.head
  have hne : ∀ c', Parser.startsNumber c' = false → c ≠ c' := by
    rintro c' hc' rfl
    exact absurd hc (by simp [hc'])
  have hminus := hne '-' (by decide)
  have hplus := hne '+' (by decide)
  have hinf := hne 'i' (by decide)
  have hnan := hne 'N' (by decide)
  cases negative with
  | true =>
    simp only [readFloat?, signed, if_true, List.cons.injEq, hinf, false_and, if_false, hread,
      Option.map_some, hvalue]
  | false =>
    simp only [readFloat?, signed]
    simp [hminus, hplus, hinf, hnan, hread, hvalue]

end FractalFormula.Decimal
