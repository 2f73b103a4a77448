import FractalFormula.Proofs.Parser.Report

/-!
# Brackets

Formulas open and close their own brackets (`Derivation.balanced`). A bracket is reported as
unclosed when the formula behind it is not followed by a closing bracket, and so it is open as far
as the parser has read. Whether it is open in the text depends on what follows
(`Tree.unclosedBracket_iff`): the parser does not look for the closing bracket any further, and
reports the bracket of `(2x)`, which is closed.
-/

namespace FractalFormula

open FractalFormula.Parser

/-! ### Matching -/

namespace Text

/-- Every prefix has at least as many opening brackets as closing ones, so that the text closes no
bracket that was opened before it. -/
def ClosesOwn (s : List Char) : Prop := ∀ t, t <+: s → t.count ')' ≤ t.count '('

/-- The text closes the brackets that it opens, and no others. -/
structure Balanced (s : List Char) : Prop where
  closesOwn : ClosesOwn s
  count_eq : s.count '(' = s.count ')'

/-- At `p` a bracket is opened that the text does not close. -/
def UnclosedAt (text : List Char) (p : Nat) : Prop :=
  text[p]? = some '(' ∧ ClosesOwn (text.drop (p + 1))

/-- A prefix ends in the first text, or it is the first text and a prefix of the second. -/
theorem ends_in_or_behind {s t u : List Char} (h : u <+: s ++ t) :
    u <+: s ∨ ∃ v, v <+: t ∧ u = s ++ v := by
  obtain hin | ⟨v, rfl⟩ := List.prefix_or_prefix_of_prefix h (List.prefix_append s t)
  · exact .inl hin
  · exact .inr ⟨v, (List.prefix_append_right_inj s).mp h, rfl⟩

theorem closesOwn_of_not_mem {s : List Char} (h : ')' ∉ s) : ClosesOwn s := by
  intro t ht
  rw [List.count_eq_zero.mpr fun hclose => h (ht.subset hclose)]
  exact Nat.zero_le _

/-- A balanced text neither opens nor closes a bracket for what follows it. -/
theorem Balanced.closesOwn_append_iff {s t : List Char} (h : Balanced s) :
    ClosesOwn (s ++ t) ↔ ClosesOwn t := by
  have hcount := h.count_eq
  constructor
  · intro hst u hu
    have := hst (s ++ u) ((List.prefix_append_right_inj s).mpr hu)
    simp only [List.count_append] at this
    omega
  · intro ht u hu
    obtain hu | ⟨v, hv, rfl⟩ := ends_in_or_behind hu
    · exact h.closesOwn u hu
    · have := ht v hv
      simp only [List.count_append]
      omega

theorem Balanced.append {s t : List Char} (hs : Balanced s) (ht : Balanced t) :
    Balanced (s ++ t) where
  closesOwn := hs.closesOwn_append_iff.mpr ht.closesOwn
  count_eq := by rw [List.count_append, List.count_append, hs.count_eq, ht.count_eq]

theorem balanced_of_not_mem {s : List Char} (hopen : '(' ∉ s) (hclose : ')' ∉ s) : Balanced s where
  closesOwn := closesOwn_of_not_mem hclose
  count_eq := by rw [List.count_eq_zero.mpr hopen, List.count_eq_zero.mpr hclose]

theorem Balanced.cons {c : Char} {s : List Char} (hs : Balanced s) (hopen : '(' ≠ c)
    (hclose : ')' ≠ c) : Balanced (c :: s) := by
  have hc : Balanced [c] := balanced_of_not_mem (by simpa using hopen) (by simpa using hclose)
  exact hc.append hs

theorem Balanced.enclosed {s : List Char} (hs : Balanced s) :
    Balanced ('(' :: (s ++ [')'])) where
  closesOwn t ht := by
    obtain rfl | ⟨u, rfl, hu⟩ := List.prefix_cons_iff.mp ht
    · exact Nat.le_refl _
    · have hcount : u.count ')' ≤ u.count '(' + 1 := by
        obtain hu | ⟨v, hv, rfl⟩ := ends_in_or_behind hu
        · exact Nat.le_succ_of_le (hs.closesOwn u hu)
        · have hv : v.count ')' ≤ 1 := hv.sublist.count_le ')'
          have hs := hs.count_eq
          simp only [List.count_append]
          omega
      simpa using hcount
  count_eq := by
    have hs := hs.count_eq
    simp [hs]

end Text

namespace Parser

theorem count_inked {c : Char} (hc : Text.isBlank c = false) (s : List Char) :
    (inked s).count c = s.count c :=
  List.count_filter (by rw [hc]; rfl)

/-- Blanks do not matter for brackets. -/
theorem balanced_of_inked {s : List Char} (h : Text.Balanced (inked s)) : Text.Balanced s where
  closesOwn t ht := by
    have hopen : Text.isBlank '(' = false := by decide
    have hclose : Text.isBlank ')' = false := by decide
    rw [← count_inked hclose, ← count_inked hopen]
    exact h.closesOwn _ (ht.filter _)
  count_eq := by
    have hcount := h.count_eq
    rwa [count_inked (by decide), count_inked (by decide)] at hcount

end Parser

/-! ### Formulas -/

namespace Derivation

open FractalFormula.Text (Balanced balanced_of_not_mem)

theorem balanced_name (name : Name) : Balanced name.1 := by
  obtain ⟨-, -, -, -, hname⟩ := name.2.head
  refine balanced_of_not_mem (fun h => ?_) (fun h => ?_)
  · exact absurd (hname _ h) (by decide)
  · exact absurd (hname _ h) (by decide)

theorem balanced_literal (literal : Digits) : Balanced literal.1 := by
  have hin := literal.2.inLiteral
  refine balanced_of_not_mem (fun h => ?_) (fun h => ?_)
  · exact absurd (hin _ h) (by simp [Literal.InLiteral])
  · exact absurd (hin _ h) (by simp [Literal.InLiteral])

theorem balanced {p : Phrase} (d : Derivation p) : Balanced d.text := by
  have hnil : Balanced [] := balanced_of_not_mem (by simp) (by simp)
  induction d with
  | plain first more hfirst hmore => exact hfirst.append hmore
  | negated first more hfirst hmore =>
    exact (hfirst.append hmore).cons (by decide) (by decide)
  | lastTerm => exact hnil
  | nextTerm s operand more hoperand hmore =>
    cases s <;> exact (hoperand.append hmore).cons (by decide) (by decide)
  | term first more hfirst hmore => exact hfirst.append hmore
  | lastPower => exact hnil
  | nextPower s operand more hoperand hmore =>
    cases s <;> exact (hoperand.append hmore).cons (by decide) (by decide)
  | base a ha => exact ha
  | raised a exponent ha hexponent =>
    exact ha.append (hexponent.cons (by decide) (by decide))
  | bracket inner hinner => exact hinner.enclosed
  | call name argument hargument => exact (balanced_name name).append hargument.enclosed
  | number literal imaginary =>
    refine (balanced_literal literal).append ?_
    cases imaginary with
    | true => exact hnil.cons (by decide) (by decide)
    | false => exact hnil
  | var name => exact balanced_name name

end Derivation

namespace Tree

variable {α : Type} [Numeral α]

/-- A text that is parsed closes the brackets that it opens, and no others. -/
theorem balanced_of_parse {text : String} {t : Tree α} (h : Tree.parse text = .ok t) :
    Text.Balanced text.toList := by
  obtain ⟨d, hd, -⟩ := formula_sound (parse_eq_ok_iff_formula.mp h)
  refine balanced_of_inked ?_
  rw [← hd]
  exact d.balanced

/-- A bracket that is reported as unclosed is open as far as the text was read, which is up to `q`,
and the text does not close it exactly if what follows from there does not. -/
theorem unclosedBracket_iff {text : String} {p : Nat}
    (h : (Tree.parse text : Except Error (Tree α)) = .error (.unclosedBracket p)) :
    text.toList[p]? = some '(' ∧ ∃ q, p < q ∧ q ≤ text.toList.length ∧
      (∃ t : Tree α, Tree.parse (String.ofList ((text.toList.take q).drop (p + 1))) = .ok t) ∧
      (inked (text.toList.drop q)).head? ≠ some ')' ∧
      (Text.UnclosedAt text.toList p ↔ Text.ClosesOwn (text.toList.drop q)) := by
  obtain ⟨hopen, q, hpq, hq, ⟨t, ht⟩, hnext⟩ := describes_of_parse_error h
  refine ⟨hopen, q, hpq, hq, ⟨t, ht⟩, hnext, ?_⟩
  have hread := balanced_of_parse ht
  rw [String.toList_ofList] at hread
  have hbehind : text.toList.drop (p + 1) =
      (text.toList.take q).drop (p + 1) ++ text.toList.drop q := by
    rw [← List.drop_append_of_le_length, List.take_append_drop]
    rw [List.length_take]
    omega
  rw [Text.UnclosedAt, and_iff_right hopen, hbehind, hread.closesOwn_append_iff]

/-- Where the text ends too early, the bracket is not closed. -/
theorem unclosedBracket_iff_end :
    (Tree.parse "2*( x+1" : Except Error (Tree ComplexFloat)) = .error (.unclosedBracket 2) ∧
      Text.UnclosedAt "2*( x+1".toList 2 := by
  have h : (Tree.parse "2*( x+1" : Except Error (Tree ComplexFloat)) =
      .error (.unclosedBracket 2) := by decide +kernel
  obtain ⟨-, q, -, -, -, -, hiff⟩ := unclosedBracket_iff h
  have hclose : ')' ∉ "2*( x+1".toList := by decide
  exact ⟨h, hiff.mpr (Text.closesOwn_of_not_mem fun hq => hclose (List.mem_of_mem_drop hq))⟩

/-- The sign of a product is missing, and the bracket is said not to be closed. It is closed. -/
theorem closed_reported_unclosed :
    (Tree.parse "(2x)" : Except Error (Tree ComplexFloat)) = .error (.unclosedBracket 0) ∧
      (Error.unclosedBracket 0).message =
        "NO_CLOSE_BRACKET: bracket opened at position 1 is not closed" ∧
      ¬Text.UnclosedAt "(2x)".toList 0 := by
  refine ⟨by decide +kernel, by decide +kernel, fun h => ?_⟩
  have hcount := h.2 ['2', 'x', ')'] (List.prefix_refl _)
  exact absurd hcount (by decide)

end Tree

end FractalFormula
