import FractalFormula.Proofs.Decimal.Overflow
import FractalFormula.Proofs.Parser.Failure
import FractalFormula.Scalar.ComplexFloat
import FractalFormula.Scalar.Real

/-!
# The longest literal

The reader of literals decides by the next characters how far a literal goes: an exponent is taken
if digits follow its letter and sign, and a second point is left. `split?_eq_some_iff` says that
what it takes is the longest literal that the text starts with. So it is with numbers
(`number_longest`): the longest literal is read, with the suffix `i` if this follows, and it can
fail only where there is no literal, beyond the range of binary64, and on the suffix among real
scalars. That the literal is not the text of a number is not among the reasons.
-/

namespace FractalFormula.Literal

open Text

/-- `l` is the longest literal that `s` starts with. -/
structure LongestLiteral (s l : List Char) : Prop where
  starts : l <+: s
  isLiteral : IsLiteral l
  longest : ∀ l', l' <+: s → IsLiteral l' → l' <+: l

theorem LongestLiteral.unique {s l l' : List Char} (h : LongestLiteral s l)
    (h' : LongestLiteral s l') : l = l' := by
  have hle := (h'.longest l h.starts h.isLiteral).length_le
  exact (h.longest l' h'.starts h'.isLiteral).eq_of_length_le hle |>.symm

/-! ### Mantissas -/

theorem IsMantissa.startsNumber {m : List Char} (h : IsMantissa m) :
    ∀ c ∈ m, Parser.startsNumber c := by
  have hdigit {ds : List Char} (h : IsRun ds) : ∀ c ∈ ds, Parser.startsNumber c := by
    intro c hc
    simp [Parser.startsNumber, h c hc]
  have hpoint {fs : List Char} (h : IsRun fs) : ∀ c ∈ '.' :: fs, Parser.startsNumber c :=
    List.forall_mem_cons.mpr ⟨by decide, hdigit h⟩
  cases h with
  | whole h _ => exact hdigit h
  | point h _ hf => exact List.forall_mem_append.mpr ⟨hdigit h, hpoint hf⟩
  | fraction hf _ => exact hpoint hf

theorem isRun_prefix_takeWhile {ds s : List Char} (h : IsRun ds) (hs : ds <+: s) :
    ds <+: s.takeWhile Char.isDigit := by
  obtain ⟨rest, rfl⟩ := hs
  rw [List.takeWhile_append_of_pos h]
  exact List.prefix_append ds _

theorem takeWhile_prefix_splitMantissa (s : List Char) :
    s.takeWhile Char.isDigit <+: (splitMantissa s).1 := by
  rw [splitMantissa]
  split
  · exact List.prefix_append _ _
  · exact List.prefix_refl _

/-- Digits, a point and digits at the start of a text are part of what is split off. -/
theorem point_prefix_splitMantissa {ds fs s : List Char} (h : IsRun ds) (hf : IsRun fs)
    (hs : ds ++ '.' :: fs <+: s) : ds ++ '.' :: fs <+: (splitMantissa s).1 := by
  obtain ⟨rest, rfl⟩ := hs
  have hdot : Stops Char.isDigit ('.' :: (fs ++ rest)) := stops_cons.mpr (by decide)
  rw [splitMantissa, List.append_assoc, List.cons_append, takeWhile_append_of_stops h hdot,
    dropWhile_append_of_stops h hdot]
  obtain ⟨more, hmore⟩ := isRun_prefix_takeWhile hf (List.prefix_append fs rest)
  refine ⟨more, ?_⟩
  simp only [List.append_assoc, List.cons_append, hmore]

/-- The mantissa that is split off is the longest one. -/
theorem mantissa_prefix_splitMantissa {m s : List Char} (h : IsMantissa m) (hs : m <+: s) :
    m <+: (splitMantissa s).1 := by
  cases h with
  | whole h _ => exact (isRun_prefix_takeWhile h hs).trans (takeWhile_prefix_splitMantissa s)
  | point h _ hf => exact point_prefix_splitMantissa h hf hs
  | fraction hf _ =>
    have h : IsRun [] := by simp [IsRun]
    exact point_prefix_splitMantissa h hf hs

/-! ### Exponents -/

/-- The exponent that is split off is the longest one. -/
theorem exponent_prefix_splitExponent {x s : List Char} (h : IsExponent x) (hs : x <+: s) :
    x <+: (splitExponent s).1 := by
  cases h with
  | absent => exact List.nil_prefix
  | @present e sign ds he hsign hd hne =>
    obtain ⟨rest, rfl⟩ := hs
    obtain ⟨more, hmore⟩ := isRun_prefix_takeWhile hd (List.prefix_append ds rest)
    have hany : ((ds ++ rest).takeWhile Char.isDigit).isEmpty = false := by
      rw [← hmore, List.isEmpty_eq_false_iff]
      exact List.append_ne_nil_of_left_ne_nil hne more
    simp only [List.cons_append, List.append_assoc, splitExponent, if_pos he,
      splitSign_append hsign hd hne, hany]
    exact ⟨more, by simp only [List.cons_append, List.append_assoc, hmore]; rfl⟩

/-- Where a mantissa could go on there is no exponent. -/
theorem exponent_eq_nil {c : Char} (hc : Parser.startsNumber c) {x s : List Char}
    (h : IsExponent x) (hx : x <+: c :: s) : x = [] := by
  cases h with
  | absent => rfl
  | present he =>
    obtain ⟨rfl, -⟩ := List.cons_prefix_cons.mp hx
    obtain rfl | rfl := he <;> exact absurd hc (by decide)

/-! ### Literals -/

/-- What is split off is the longest literal: a literal with a shorter mantissa has no exponent. -/
theorem longest_of_split? {s l after : List Char} (h : split? s = some (l, after)) :
    s = l ++ after ∧ LongestLiteral s l := by
  obtain ⟨hs, hl⟩ := isLiteral_of_split? h
  refine ⟨hs, ⟨after, hs.symm⟩, hl, ?_⟩
  rintro l' hl' ⟨m', x', hm', hx', rfl⟩
  obtain ⟨hsplit, hmant⟩ := splitMantissa_spec s
  simp only [split?] at h
  split at h
  · next hany =>
    obtain ⟨rfl, rfl⟩ := Prod.mk.injEq .. ▸ Option.some.inj h
    obtain ⟨more, hmore⟩ :=
      mantissa_prefix_splitMantissa hm' ((List.prefix_append m' x').trans hl')
    rw [hsplit, ← hmore, List.append_assoc, List.prefix_append_right_inj] at hl'
    rw [← hmore, List.append_assoc, List.prefix_append_right_inj]
    cases more with
    | nil => exact exponent_prefix_splitExponent hx' hl'
    | cons c more =>
      have hc : Parser.startsNumber c := (hmant hany).startsNumber c (by simp [← hmore])
      rw [exponent_eq_nil hc hx' hl']
      exact List.nil_prefix
  · cases h

theorem split?_isSome_of_literal {s l : List Char} (hl : l <+: s) (h : IsLiteral l) :
    (split? s).isSome := by
  obtain ⟨m, x, hm, -, rfl⟩ := h
  obtain ⟨more, hmore⟩ := mantissa_prefix_splitMantissa hm ((List.prefix_append m x).trans hl)
  have hany : (splitMantissa s).1.any Char.isDigit := by
    rw [← hmore, List.any_append, hm.any_isDigit, Bool.true_or]
  simp only [split?, if_pos hany, Option.isSome_some]

/-- The longest literal is split off, and nothing else. -/
theorem split?_eq_some_iff {s l after : List Char} :
    split? s = some (l, after) ↔ s = l ++ after ∧ LongestLiteral s l := by
  constructor
  · exact longest_of_split?
  · rintro ⟨hs, hl⟩
    obtain ⟨⟨l', after'⟩, h⟩ := Option.isSome_iff_exists.mp
      (split?_isSome_of_literal hl.starts hl.isLiteral)
    obtain ⟨hs', hl'⟩ := longest_of_split? h
    obtain rfl := hl.unique hl'
    rw [h, List.append_cancel_left (hs.symm.trans hs')]

/-- Where a number may start there is no literal only if a point stands there without a digit
behind it. -/
theorem split?_eq_none_iff {c : Char} (hc : Parser.startsNumber c) (s : List Char) :
    split? (c :: s) = none ↔ c = '.' ∧ Stops Char.isDigit s := by
  constructor
  · intro h
    have hnone {l : List Char} (hl : l <+: c :: s) (hlit : IsLiteral l) : False := by
      have hsome := split?_isSome_of_literal hl hlit
      rw [h] at hsome
      cases hsome
    have hdot : c = '.' := by
      simp only [Parser.startsNumber, Bool.or_eq_true, decide_eq_true_eq] at hc
      obtain hdigit | hdot := hc
      · have hrun : IsRun [c] := List.forall_mem_singleton.mpr hdigit
        exact (hnone (List.prefix_append [c] s)
          ⟨[c], [], .whole hrun (List.cons_ne_nil c []), .absent, rfl⟩).elim
      · exact hdot
    refine ⟨hdot, fun d hd => Bool.eq_false_iff.mpr fun hdigit => ?_⟩
    obtain ⟨rest, rfl⟩ := List.head?_eq_some_iff.mp hd
    have hrun : IsRun [d] := List.forall_mem_singleton.mpr hdigit
    subst hdot
    exact hnone (List.prefix_append ['.', d] rest)
      ⟨['.', d], [], .fraction hrun (List.cons_ne_nil d []), .absent, rfl⟩
  · rintro ⟨rfl, hs⟩
    have hnil : ∀ c ∈ ([] : List Char), c.isDigit := by simp
    have hrun : s.takeWhile Char.isDigit = [] := takeWhile_append_of_stops hnil hs
    have hdot : splitMantissa ('.' :: s) = (['.'], s.dropWhile Char.isDigit) := by
      simp [splitMantissa, hrun]
    rw [split?, hdot]
    rfl

/-! ### Conversion -/

/-- The texts that can be converted to binary64: a sign or nothing, and then digits with at most one
point among them and an exponent or nothing, or a word that stands for no finite number. -/
inductive IsFloatText : List Char → Prop where
  | whole {s ds x : List Char} : IsSign s → IsRun ds → ds ≠ [] → IsExponent x →
    IsFloatText (s ++ (ds ++ x))
  | point {s ds fs x : List Char} : IsSign s → IsRun ds → IsRun fs → ds ≠ [] ∨ fs ≠ [] →
    IsExponent x → IsFloatText (s ++ (ds ++ '.' :: (fs ++ x)))
  | word {s w : List Char} : IsSign s →
    String.ofList (w.map Char.toLower) ∈ ["inf", "infinity", "nan"] → IsFloatText (s ++ w)

theorem IsLiteral.isFloatText {l : List Char} (h : IsLiteral l) : IsFloatText l := by
  obtain ⟨m, x, hm, hx, rfl⟩ := h
  have hsign : IsSign [] := .inl rfl
  cases hm with
  | whole h hne => exact .whole hsign h hne hx
  | @point ds fs h hne hf =>
    rw [List.append_assoc, List.cons_append]
    exact .point hsign h hf (.inl hne) hx
  | fraction hf hne =>
    have h : IsRun [] := by simp [IsRun]
    exact .point hsign h hf (.inr hne) hx

theorem isExponent_of_readExponent? {x : List Char} {e : Int}
    (h : Decimal.readExponent? x = some e) : IsExponent x := by
  have hdigits {ds : List Char} (h : ¬(ds.isEmpty || !ds.all Char.isDigit) = true) :
      IsRun ds ∧ ds ≠ [] := by
    simp only [Bool.or_eq_true, not_or, List.isEmpty_iff, Bool.not_eq_true', Bool.not_eq_false,
      List.all_eq_true] at h
    exact ⟨h.2, h.1⟩
  rw [Decimal.readExponent?.eq_def] at h
  split at h
  · exact .absent
  · split at h
    · next he =>
      split at h <;> split at h
      · cases h
      · next hds => exact .present he (.inr (.inr rfl)) (hdigits hds).1 (hdigits hds).2
      · cases h
      · next hds => exact .present he (.inr (.inl rfl)) (hdigits hds).1 (hdigits hds).2
      · cases h
      · next hds => exact .present he (.inl rfl) (hdigits hds).1 (hdigits hds).2
    · cases h

/-- The conversion fails on nothing but what is no literal. -/
theorem exists_read?_iff {l : List Char} : (∃ d, Decimal.read? l = some d) ↔ IsLiteral l := by
  constructor
  swap
  · exact exists_read?
  rintro ⟨d, h⟩
  have hrun := isRun_takeWhile l
  have hl : l.takeWhile Char.isDigit ++ l.dropWhile Char.isDigit = l :=
    List.takeWhile_append_dropWhile
  simp only [Decimal.read?] at h
  generalize l.takeWhile Char.isDigit = whole at h hrun hl
  generalize l.dropWhile Char.isDigit = behind at h hl
  subst hl
  split at h
  · next after =>
    dsimp only at h
    split at h
    · cases h
    · next hne =>
      obtain ⟨e, he, -⟩ := Option.map_eq_some_iff.mp h
      refine ⟨whole ++ '.' :: after.takeWhile Char.isDigit, _, ?_,
        isExponent_of_readExponent? he, ?_⟩
      · by_cases hwhole : whole = []
        · subst hwhole
          exact .fraction (isRun_takeWhile after) (by simpa using hne)
        · exact .point hrun hwhole (isRun_takeWhile after)
      · rw [List.append_assoc, List.cons_append, List.takeWhile_append_dropWhile]
  · dsimp only at h
    split at h
    · cases h
    · next hne =>
      obtain ⟨e, he, -⟩ := Option.map_eq_some_iff.mp h
      exact ⟨whole, behind, .whole hrun (by simpa using hne), isExponent_of_readExponent? he, rfl⟩

/-- The number that is written is too large for binary64. -/
def Overflows (l : List Char) : Prop :=
  ∃ d, Decimal.read? l = some d ∧ Decimal.overflowLimit ≤ d.value

theorem value?_eq_none_iff {l : List Char} (h : IsLiteral l) : value? l = none ↔ Overflows l := by
  obtain ⟨d, hd⟩ := exists_read? h
  simp only [value?, hd, Option.bind_some, Overflows, Option.some.injEq, exists_eq_left']
  rw [← not_lt, ← Decimal.toBits_lt_infinityBits_iff]
  split <;> simp_all

end FractalFormula.Literal

namespace FractalFormula.Parser

open Literal Text

/-! ### Numbers -/

/-- `s` is the longest literal `l`, the suffix `i` if the number is imaginary, and `rest`. The
suffix belongs to the number wherever it follows the literal. -/
structure Lexeme (s l : List Char) (imaginary : Bool) (rest : List Char) : Prop where
  text : s = l ++ ((if imaginary then ['i'] else []) ++ rest)
  longest : LongestLiteral s l
  suffix : imaginary = false → rest.head? ≠ some 'i'

theorem exists_lexeme {s l after : List Char} (h : split? s = some (l, after)) :
    ∃ imaginary rest, after = (if imaginary then ['i'] else []) ++ rest ∧
      Lexeme s l imaginary rest := by
  obtain ⟨hs, hl⟩ := split?_eq_some_iff.mp h
  by_cases hi : after.head? = some 'i'
  · obtain ⟨rest, rfl⟩ := List.head?_eq_some_iff.mp hi
    exact ⟨true, rest, rfl, hs, hl, nofun⟩
  · exact ⟨false, after, rfl, hs, hl, fun _ => hi⟩

namespace Lexeme

variable {s l l' rest rest' : List Char} {imaginary imaginary' : Bool}

theorem split? (h : Lexeme s l imaginary rest) :
    Literal.split? s = some (l, (if imaginary then ['i'] else []) ++ rest) :=
  split?_eq_some_iff.mpr ⟨h.text, h.longest⟩

theorem unique (h : Lexeme s l imaginary rest) (h' : Lexeme s l' imaginary' rest') :
    l = l' ∧ imaginary = imaginary' := by
  obtain rfl := h.longest.unique h'.longest
  refine ⟨rfl, ?_⟩
  have hafter := List.append_cancel_left (h.text.symm.trans h'.text)
  cases imaginary <;> cases imaginary'
  · rfl
  · exact (h.suffix rfl (by simpa using congrArg List.head? hafter)).elim
  · exact (h'.suffix rfl (by simpa using congrArg List.head? hafter.symm)).elim
  · rfl

end Lexeme

/-- What becomes of a number that starts at the position `p` of `text`, where `s` is unread, among
scalars that are real numbers or not. -/
structure LexesNumber (α : Type) [Numeral α] (real : Prop) (text s : List Char) (p : Nat) :
    Prop where
  /-- The longest literal is taken. -/
  takes : ∀ l after, split? s = some (l, after) ↔ s = l ++ after ∧ LongestLiteral s l
  /-- What is taken can be converted. -/
  converts : ∀ l after, split? s = some (l, after) →
    IsFloatText l ∧ ∃ d, Decimal.read? l = some d
  /-- The number is that of the literal and of the suffix directly behind it. -/
  reads : ∀ r : Reading α, number s = .ok r → ∃ l imaginary v x, Lexeme s l imaginary r.rest ∧
    value? l = some v ∧ Numeral.ofLiteral? v imaginary = some x ∧ r.tree = .num x
  fails_iff : (∃ f, (number s : Except Failure (Reading α)) = .error f) ↔
    (∃ after, s = '.' :: after ∧ Stops Char.isDigit after) ∨
      ∃ l imaginary rest, Lexeme s l imaginary rest ∧ (Overflows l ∨ real ∧ imaginary)
  fails_at : ∀ f, (number s : Except Failure (Reading α)) = .error f →
    f.locate text = .syntaxError p

section

variable {α : Type} [Numeral α] {real : Prop}

theorem isBlank_of_startsNumber {c : Char} (hc : startsNumber c) : isBlank c = false := by
  simp only [startsNumber, Bool.or_eq_true, decide_eq_true_eq] at hc
  obtain hdigit | rfl := hc
  · exact isBlank_of_isDigit hdigit
  · decide

theorem exists_lexeme_of_number {s : List Char} {r : Reading α} (h : number s = .ok r) :
    ∃ l imaginary v x, Lexeme s l imaginary r.rest ∧ value? l = some v ∧
      Numeral.ofLiteral? v imaginary = some x ∧ r.tree = .num x := by
  obtain ⟨l, imaginary, rest, v, x, hsplit, hi, hv, hx, rfl⟩ := number_eq_ok_iff.mp h
  obtain ⟨hs, hl⟩ := split?_eq_some_iff.mp hsplit
  exact ⟨l, imaginary, v, x, ⟨hs, hl, hi⟩, hv, hx, rfl⟩

/-- A number fails at the literal if it is too large, and at the suffix if it is refused. -/
theorem number_error_iff (hreal : ∀ v, (Numeral.ofLiteral? v false : Option α).isSome)
    (himaginary : ∀ v, (Numeral.ofLiteral? v true : Option α) = none ↔ real) {c : Char}
    (hc : startsNumber c) (s : List Char) :
    (∃ f, (number (c :: s) : Except Failure (Reading α)) = .error f) ↔
      (∃ after, c :: s = '.' :: after ∧ Stops Char.isDigit after) ∨
        ∃ l imaginary rest, Lexeme (c :: s) l imaginary rest ∧
          (Overflows l ∨ real ∧ imaginary) := by
  have hnone : split? (c :: s) = none ↔
      ∃ after, c :: s = '.' :: after ∧ Stops Char.isDigit after := by
    rw [split?_eq_none_iff hc]
    simp
  rw [← hnone, ← not_isOk_iff, isOk_iff]
  constructor
  · intro hfails
    cases hsplit : split? (c :: s) with
    | none => exact .inl rfl
    | some taken =>
      obtain ⟨l, after⟩ := taken
      obtain ⟨imaginary, rest, rfl, hlex⟩ := exists_lexeme hsplit
      refine .inr ⟨l, imaginary, rest, hlex, ?_⟩
      cases hv : value? l with
      | none => exact .inl ((value?_eq_none_iff hlex.longest.isLiteral).mp hv)
      | some v =>
        cases hx : (Numeral.ofLiteral? v imaginary : Option α) with
        | none =>
          cases imaginary with
          | true => exact .inr ⟨(himaginary v).mp hx, rfl⟩
          | false => exact absurd (hreal v) (by simp [hx])
        | some x =>
          exact (hfails ⟨_, number_eq_ok_iff.mpr
            ⟨l, imaginary, rest, v, x, hsplit, hlex.suffix, hv, hx, rfl⟩⟩).elim
  · rintro hfails ⟨r, hr⟩
    obtain ⟨l, imaginary, v, x, hlex, hv, hx, -⟩ := exists_lexeme_of_number hr
    obtain hfails | ⟨l', imaginary', rest', hlex', hfails⟩ := hfails
    · rw [hlex.split?] at hfails
      cases hfails
    · obtain ⟨rfl, rfl⟩ := hlex.unique hlex'
      obtain hlarge | ⟨hreal, rfl⟩ := hfails
      · rw [(value?_eq_none_iff hlex.longest.isLiteral).mpr hlarge] at hv
        cases hv
      · rw [(himaginary v).mpr hreal] at hx
        cases hx

theorem lexesNumber (hreal : ∀ v, (Numeral.ofLiteral? v false : Option α).isSome)
    (himaginary : ∀ v, (Numeral.ofLiteral? v true : Option α) = none ↔ real)
    {before after : List Char} {c : Char} (hc : startsNumber c) :
    LexesNumber α real (before ++ c :: after) (c :: inked after) before.length where
  takes _ _ := split?_eq_some_iff
  converts _ _ h := by
    have hl := (isLiteral_of_split? h).2
    exact ⟨hl.isFloatText, exists_read?_iff.mpr hl⟩
  reads _ := exists_lexeme_of_number
  fails_iff := number_error_iff hreal himaginary hc _
  fails_at f h := by
    rw [number_error h, Failure.locate, List.length_cons,
      positionOf_append (isBlank_of_startsNumber hc)]

end

/-- Wherever a digit or a point stands in a text, the longest literal is read there, and the suffix
`i` if it follows. The reading fails only without digits, beyond the range of binary64, and on the
suffix among real scalars, always with the position where the number starts. -/
theorem number_longest {before after : List Char} {c : Char} (hc : startsNumber c) :
    LexesNumber Float True (before ++ c :: after) (c :: inked after) before.length ∧
      LexesNumber ComplexFloat False (before ++ c :: after) (c :: inked after) before.length :=
  ⟨lexesNumber (fun _ => rfl) (fun _ => iff_of_true rfl trivial) hc,
    lexesNumber (fun _ => rfl) (fun _ => iff_of_false (Option.some_ne_none _) id) hc⟩

/-- An exponent directly behind the point, and a second point that is left; blanks do not count. -/
theorem number_longest_secondPoint :
    startsNumber '1' ∧
      split? ('1' :: inked " .e5.5i".toList) = some ("1.e5".toList, ".5i".toList) ∧
      LexesNumber Float True "x-1 .e5.5i".toList ('1' :: inked " .e5.5i".toList) 2 ∧
      LexesNumber ComplexFloat False "x-1 .e5.5i".toList ('1' :: inked " .e5.5i".toList) 2 := by
  have hc : startsNumber '1' := by decide
  exact ⟨hc, by decide, @number_longest "x-".toList " .e5.5i".toList '1' hc⟩

end FractalFormula.Parser
