import FractalFormula.Proofs.Parser.Derivation

/-!
# The grammar is unambiguous

A text has at most one derivation (`eq_of_text_eq`). The induction runs over one of two
derivations whose texts, each with something behind it, are the same (`Rigid`): reading from the
left, both must end at the same place, because what may follow a phrase does not go on with it.
-/

namespace FractalFormula.Derivation

open Text
open FractalFormula.Parser (startsName inName startsNumber)

/-! ### Atoms differ in their first character -/

theorem bracket_ne_name (name : Name) (s t : List Char) : '(' :: s ≠ name.1 ++ t := by
  obtain ⟨c, cs, hcs, hc, -⟩ := name.2.head
  rw [hcs]
  rintro h
  obtain ⟨rfl, -⟩ := List.cons.inj h
  exact absurd hc (by decide)

theorem bracket_ne_number (literal : Digits) (s t : List Char) : '(' :: s ≠ literal.1 ++ t := by
  obtain ⟨c, cs, hcs, hc⟩ := literal.2.head
  rw [hcs]
  rintro h
  obtain ⟨rfl, -⟩ := List.cons.inj h
  exact absurd hc (by decide)

theorem startsName_of_startsNumber {c : Char} (h : startsNumber c) : startsName c = false := by
  simp only [startsNumber, Bool.or_eq_true, decide_eq_true_eq] at h
  obtain h | rfl := h
  · exact Parser.startsName_of_isDigit h
  · decide

theorem name_ne_number (name : Name) (literal : Digits) (s t : List Char) :
    name.1 ++ s ≠ literal.1 ++ t := by
  obtain ⟨c, cs, hcs, hc, -⟩ := name.2.head
  obtain ⟨c', cs', hcs', hc'⟩ := literal.2.head
  rw [hcs, hcs']
  intro h
  obtain ⟨rfl, -⟩ := List.cons.inj h
  rw [startsName_of_startsNumber hc'] at hc
  exact absurd hc (by decide)

/-! ### Tokens end where they must -/

theorem stops_bracket (s : List Char) : Stops inName ('(' :: s) := stops_cons.mpr (by decide)

theorem name_append_inj {name name' : Name} {s t : List Char} (hs : Stops inName s)
    (ht : Stops inName t) (h : name.1 ++ s = name'.1 ++ t) : name = name' ∧ s = t := by
  obtain ⟨-, -, -, -, hn⟩ := name.2.head
  obtain ⟨-, -, -, -, hn'⟩ := name'.2.head
  obtain ⟨h₁, h₂⟩ := run_append_inj hn hn' hs ht h
  exact ⟨Subtype.ext h₁, h₂⟩

theorem ended_suffix {rest : List Char} (imaginary : Bool) (h : Phrase.atom.EndsAt rest) :
    Literal.Ended ((if imaginary then ['i'] else []) ++ rest) := by
  cases imaginary with
  | true => exact Literal.ended_cons.mpr (by decide)
  | false => exact h.ended

theorem number_append_inj {literal literal' : Digits} {imaginary imaginary' : Bool}
    {rest rest' : List Char} (hr : Phrase.atom.EndsAt rest) (hr' : Phrase.atom.EndsAt rest')
    (h : (number literal imaginary).text ++ rest = (number literal' imaginary').text ++ rest') :
    literal = literal' ∧ imaginary = imaginary' ∧ rest = rest' := by
  simp only [text, List.append_assoc] at h
  have hl := Literal.split?_append literal.2 (ended_suffix imaginary hr)
  rw [h, Literal.split?_append literal'.2 (ended_suffix imaginary' hr')] at hl
  obtain ⟨hlit, hsuf⟩ := Prod.mk.inj (Option.some.inj hl)
  refine ⟨Subtype.ext hlit.symm, ?_⟩
  have hi : 'i' ∉ Phrase.atom.follow := by decide
  cases imaginary <;> cases imaginary'
  · exact ⟨rfl, hsuf.symm⟩
  · exact absurd (congrArg List.head? hsuf.symm) (hr.head?_ne hi)
  · exact absurd (congrArg List.head? hsuf) (hr'.head?_ne hi)
  · exact ⟨rfl, (List.cons.inj hsuf).2.symm⟩

/-! ### Signs -/

theorem Sign.char_inj {s s' : Sign} (h : s.char = s'.char) : s = s' := by
  cases s <;> cases s' <;> first | rfl | exact absurd h (by decide)

theorem Scale.char_inj {s s' : Scale} (h : s.char = s'.char) : s = s' := by
  cases s <;> cases s' <;> first | rfl | exact absurd h (by decide)

theorem sign_ne_head {s : Sign} {more : List Char} {rest : List Char}
    (hr : Phrase.moreTerms.EndsAt rest) : rest ≠ s.char :: more := by
  rintro rfl
  have hs := Phrase.endsAt_cons.mp hr
  cases s <;> exact absurd hs (by decide)

theorem scale_ne_head {s : Scale} {more : List Char} {rest : List Char}
    (hr : Phrase.morePowers.EndsAt rest) : rest ≠ s.char :: more := by
  rintro rfl
  have hs := Phrase.endsAt_cons.mp hr
  cases s <;> exact absurd hs (by decide)

/-! ### Derivations -/

/-- A phrase that reads the same, each with a text behind it that may follow, is the same phrase,
and the text is the same. -/
def Rigid {p : Phrase} (d : Derivation p) : Prop :=
  ∀ ⦃d' : Derivation p⦄ ⦃rest rest' : List Char⦄, p.EndsAt rest → p.EndsAt rest' →
    d.text ++ rest = d'.text ++ rest' → d = d' ∧ rest = rest'

namespace Rigid

theorem plain {first : Derivation .term} {more : Derivation .moreTerms} (hfirst : first.Rigid)
    (hmore : more.Rigid) : (plain first more).Rigid := by
  intro d' rest rest' hr hr' h
  cases d' with
  | plain first' more' =>
    simp only [text, List.append_assoc] at h
    obtain ⟨rfl, htail⟩ := hfirst (endsAt_moreTerms more hr) (endsAt_moreTerms more' hr') h
    obtain ⟨rfl, hrest⟩ := hmore hr hr' htail
    exact ⟨rfl, hrest⟩
  | negated first' more' =>
    simp only [text, List.append_assoc, List.cons_append] at h
    exact absurd h (first.term_text_ne _ _)

theorem negated {first : Derivation .term} {more : Derivation .moreTerms} (hfirst : first.Rigid)
    (hmore : more.Rigid) : (negated first more).Rigid := by
  intro d' rest rest' hr hr' h
  cases d' with
  | plain first' more' =>
    simp only [text, List.append_assoc, List.cons_append] at h
    exact absurd h.symm (first'.term_text_ne _ _)
  | negated first' more' =>
    simp only [text, List.append_assoc, List.cons_append, List.cons.injEq, true_and] at h
    obtain ⟨rfl, htail⟩ := hfirst (endsAt_moreTerms more hr) (endsAt_moreTerms more' hr') h
    obtain ⟨rfl, hrest⟩ := hmore hr hr' htail
    exact ⟨rfl, hrest⟩

theorem lastTerm : (lastTerm).Rigid := by
  intro d' rest rest' hr hr' h
  cases d' with
  | lastTerm => exact ⟨rfl, h⟩
  | nextTerm s => exact absurd h (sign_ne_head hr)

theorem nextTerm (s : Sign) {operand : Derivation .term} {more : Derivation .moreTerms}
    (hoperand : operand.Rigid) (hmore : more.Rigid) : (nextTerm s operand more).Rigid := by
  intro d' rest rest' hr hr' h
  cases d' with
  | lastTerm => exact absurd h.symm (sign_ne_head hr')
  | nextTerm s' operand' more' =>
    simp only [text, List.append_assoc, List.cons_append, List.cons.injEq] at h
    obtain rfl := Sign.char_inj h.1
    obtain ⟨rfl, htail⟩ := hoperand (endsAt_moreTerms more hr) (endsAt_moreTerms more' hr') h.2
    obtain ⟨rfl, hrest⟩ := hmore hr hr' htail
    exact ⟨rfl, hrest⟩

theorem term {first : Derivation .power} {more : Derivation .morePowers} (hfirst : first.Rigid)
    (hmore : more.Rigid) : (term first more).Rigid := by
  intro d' rest rest' hr hr' h
  cases d' with
  | term first' more' =>
    simp only [text, List.append_assoc] at h
    obtain ⟨rfl, htail⟩ := hfirst (endsAt_morePowers more hr) (endsAt_morePowers more' hr') h
    obtain ⟨rfl, hrest⟩ := hmore hr hr' htail
    exact ⟨rfl, hrest⟩

theorem lastPower : (lastPower).Rigid := by
  intro d' rest rest' hr hr' h
  cases d' with
  | lastPower => exact ⟨rfl, h⟩
  | nextPower s => exact absurd h (scale_ne_head hr)

theorem nextPower (s : Scale) {operand : Derivation .power} {more : Derivation .morePowers}
    (hoperand : operand.Rigid) (hmore : more.Rigid) : (nextPower s operand more).Rigid := by
  intro d' rest rest' hr hr' h
  cases d' with
  | lastPower => exact absurd h.symm (scale_ne_head hr')
  | nextPower s' operand' more' =>
    simp only [text, List.append_assoc, List.cons_append, List.cons.injEq] at h
    obtain rfl := Scale.char_inj h.1
    obtain ⟨rfl, htail⟩ := hoperand (endsAt_morePowers more hr) (endsAt_morePowers more' hr') h.2
    obtain ⟨rfl, hrest⟩ := hmore hr hr' htail
    exact ⟨rfl, hrest⟩

/-- What may follow a power does not start with `^`. -/
theorem base {a : Derivation .atom} (ha : a.Rigid) : (base a).Rigid := by
  intro d' rest rest' hr hr' h
  cases d' with
  | base a' =>
    obtain ⟨rfl, hrest⟩ := ha hr.atom hr'.atom h
    exact ⟨rfl, hrest⟩
  | raised a' exponent' =>
    simp only [text, List.append_assoc, List.cons_append] at h
    obtain ⟨-, rfl⟩ := ha hr.atom (Phrase.endsAt_caret _) h
    exact absurd hr (Phrase.not_endsAt_caret _)

theorem raised {a : Derivation .atom} {exponent : Derivation .power} (ha : a.Rigid)
    (hexponent : exponent.Rigid) : (raised a exponent).Rigid := by
  intro d' rest rest' hr hr' h
  cases d' with
  | base a' =>
    simp only [text, List.append_assoc, List.cons_append] at h
    obtain ⟨-, rfl⟩ := ha (Phrase.endsAt_caret _) hr'.atom h
    exact absurd hr' (Phrase.not_endsAt_caret _)
  | raised a' exponent' =>
    simp only [text, List.append_assoc, List.cons_append] at h
    obtain ⟨rfl, htail⟩ := ha (Phrase.endsAt_caret _) (Phrase.endsAt_caret _) h
    obtain ⟨rfl, hrest⟩ := hexponent hr hr' (List.cons.inj htail).2
    exact ⟨rfl, hrest⟩

theorem bracket {inner : Derivation .expr} (hinner : inner.Rigid) : (bracket inner).Rigid := by
  intro d' rest rest' hr hr' h
  cases d' with
  | bracket inner' =>
    simp only [text, List.append_assoc, List.cons_append, List.cons.injEq, true_and] at h
    obtain ⟨rfl, hclose⟩ := hinner (Phrase.endsAt_close _) (Phrase.endsAt_close _) h
    exact ⟨rfl, (List.cons.inj hclose).2⟩
  | call name' argument' =>
    simp only [text, List.append_assoc, List.cons_append] at h
    exact absurd h (bracket_ne_name _ _ _)
  | number literal' imaginary' =>
    simp only [text, List.append_assoc, List.cons_append] at h
    exact absurd h (bracket_ne_number _ _ _)
  | var name' => exact absurd h (bracket_ne_name _ _ _)

/-- A call is told from a variable by its opening bracket. -/
theorem call (name : Name) {argument : Derivation .expr} (hargument : argument.Rigid) :
    (call name argument).Rigid := by
  intro d' rest rest' hr hr' h
  simp only [text, List.append_assoc, List.cons_append] at h
  cases d' with
  | bracket inner' => exact absurd h.symm (bracket_ne_name _ _ _)
  | call name' argument' =>
    simp only [text, List.append_assoc, List.cons_append] at h
    obtain ⟨rfl, hopen⟩ := name_append_inj (stops_bracket _) (stops_bracket _) h
    obtain ⟨rfl, hclose⟩ := hargument (Phrase.endsAt_close _) (Phrase.endsAt_close _)
      (List.cons.inj hopen).2
    exact ⟨rfl, (List.cons.inj hclose).2⟩
  | number literal' imaginary' =>
    simp only [text, List.append_assoc] at h
    exact absurd h (name_ne_number _ _ _ _)
  | var name' =>
    obtain ⟨-, rfl⟩ := name_append_inj (stops_bracket _) hr'.stops h
    exact absurd hr' (Phrase.not_endsAt_open _)

theorem number (literal : Digits) (imaginary : Bool) : (number literal imaginary).Rigid := by
  intro d' rest rest' hr hr' h
  cases d' with
  | bracket inner' =>
    simp only [text, List.append_assoc, List.cons_append] at h
    exact absurd h.symm (bracket_ne_number _ _ _)
  | call name' argument' =>
    simp only [text, List.append_assoc] at h
    exact absurd h.symm (name_ne_number _ _ _ _)
  | number literal' imaginary' =>
    obtain ⟨rfl, rfl, hrest⟩ := number_append_inj hr hr' h
    exact ⟨rfl, hrest⟩
  | var name' =>
    simp only [text, List.append_assoc] at h
    exact absurd h.symm (name_ne_number _ _ _ _)

theorem var (name : Name) : (var name).Rigid := by
  intro d' rest rest' hr hr' h
  cases d' with
  | bracket inner' => exact absurd h.symm (bracket_ne_name _ _ _)
  | call name' argument' =>
    simp only [text, List.append_assoc, List.cons_append] at h
    obtain ⟨-, rfl⟩ := name_append_inj hr.stops (stops_bracket _) h
    exact absurd hr (Phrase.not_endsAt_open _)
  | number literal' imaginary' =>
    simp only [text, List.append_assoc] at h
    exact absurd h (name_ne_number _ _ _ _)
  | var name' =>
    obtain ⟨rfl, hrest⟩ := name_append_inj hr.stops hr'.stops h
    exact ⟨rfl, hrest⟩

end Rigid

theorem rigid {p : Phrase} (d : Derivation p) : d.Rigid := by
  induction d with
  | plain first more hfirst hmore => exact .plain hfirst hmore
  | negated first more hfirst hmore => exact .negated hfirst hmore
  | lastTerm => exact .lastTerm
  | nextTerm s operand more hoperand hmore => exact .nextTerm s hoperand hmore
  | term first more hfirst hmore => exact .term hfirst hmore
  | lastPower => exact .lastPower
  | nextPower s operand more hoperand hmore => exact .nextPower s hoperand hmore
  | base a ha => exact .base ha
  | raised a exponent ha hexponent => exact .raised ha hexponent
  | bracket inner hinner => exact .bracket hinner
  | call name argument hargument => exact .call name hargument
  | number literal imaginary => exact .number literal imaginary
  | var name => exact .var name

/-- A text has at most one derivation. -/
theorem eq_of_text_eq {p : Phrase} {d d' : Derivation p} (h : d.text = d'.text) : d = d' := by
  have h' : d.text ++ [] = d'.text ++ [] := congrArg (· ++ []) h
  exact (d.rigid p.endsAt_nil p.endsAt_nil h').1

end FractalFormula.Derivation
