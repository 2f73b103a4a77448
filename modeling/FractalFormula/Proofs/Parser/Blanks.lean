import FractalFormula.Proofs.Parser.Report
import FractalFormula.Proofs.Parser.RoundTrip

/-!
# Blanks do not matter

Texts that differ only in their blanks are parsed into the same tree, or refused for the same reason
(`Tree.parse_ignores_blanks`). Positions count the blanks, so that they differ; but the `k`-th
character of one text that is not a blank corresponds to that of the other, and the end to the end.
-/

namespace FractalFormula

open FractalFormula.Parser

/-- The positions `p` of `s` and `p'` of `s'` are those of the `k`-th character that is not a blank,
for the same `k`, or they are the ends of the texts. -/
def Parser.Corresponds (s s' : List Char) (p p' : Nat) : Prop :=
  (∃ k, InkAt s k p ∧ InkAt s' k p') ∨ p = s.length ∧ p' = s'.length

/-- The errors of a parse of `s` and of one of `s'` differ only in positions that correspond. -/
inductive Error.Alike (s s' : List Char) : Error → Error → Prop where
  | syntaxError {p p' : Nat} : Corresponds s s' p p' →
    Alike s s' (.syntaxError p) (.syntaxError p')
  | unclosedBracket {p p' : Nat} : Corresponds s s' p p' →
    Alike s s' (.unclosedBracket p) (.unclosedBracket p')
  | unknownFunction (name : String) : Alike s s' (.unknownFunction name) (.unknownFunction name)
  | unexpectedSymbol {p p' : Nat} (symbol : Char) : Corresponds s s' p p' →
    Alike s s' (.unexpectedSymbol p symbol) (.unexpectedSymbol p' symbol)

namespace Parser

variable {s s' : List Char}

theorem corresponds_positionOf (h : inked s = inked s') {unread : Nat}
    (hle : unread ≤ (inked s).length) :
    Corresponds s s' (positionOf s unread) (positionOf s' unread) := by
  obtain rfl | hpos := Nat.eq_zero_or_pos unread
  · exact .inr ⟨positionOf_zero s, positionOf_zero s'⟩
  · have hink := inkAt_positionOf hpos (h ▸ hle)
    rw [← h] at hink
    exact .inl ⟨_, inkAt_positionOf hpos hle, hink⟩

theorem Failure.alike_locate (h : inked s = inked s') {f : Failure}
    (hf : ∀ unread, f.unread? = some unread → unread ≤ (inked s).length) :
    (f.locate s).Alike s s' (f.locate s') := by
  cases f with
  | unreadable unread => exact .syntaxError (corresponds_positionOf h (hf unread rfl))
  | unclosed unread => exact .unclosedBracket (corresponds_positionOf h (hf unread rfl))
  | noFunction name => exact .unknownFunction _
  | leftover unread symbol =>
    exact .unexpectedSymbol symbol (corresponds_positionOf h (hf unread rfl))

end Parser

namespace Tree

/-- Wherever blanks are put into a text, or taken out of it, the same tree is parsed, or the same
error is reported at the position that corresponds. -/
theorem parse_ignores_blanks {α : Type} [Numeral α] [LawfulNumeral α] {s s' : String}
    (h : inked s.toList = inked s'.toList) :
    (∃ t : Tree α, Tree.parse s = .ok t ∧ Tree.parse s' = .ok t ∧ (t == t) = true) ∨
      ∃ e e', (Tree.parse s : Except Error (Tree α)) = .error e ∧
        (Tree.parse s' : Except Error (Tree α)) = .error e' ∧ e.Alike s.toList s'.toList e' := by
  cases hf : (formula (inked s.toList) : Except Failure (Tree α)) with
  | ok t =>
    have hs := parse_eq_ok_iff_formula.mpr hf
    exact .inl ⟨t, hs, parse_eq_ok_iff_formula.mpr (h ▸ hf), (parse_text_of_parse hs).2⟩
  | error f =>
    refine .inr ⟨_, _, parse_of_formula_error hf, parse_of_formula_error (h ▸ hf), ?_⟩
    exact Failure.alike_locate h fun _ => unread_le_of_formula_error hf

/-- A bracket that is reported in both texts, in each at the place where it stands. -/
theorem parse_ignores_blanks_bracket :
    inked "1 + sin ( 2 x )".toList = inked "1+sin(2x)".toList ∧
      (Tree.parse "1 + sin ( 2 x )" : Except Error (Tree Float)) = .error (.unclosedBracket 8) ∧
      (Tree.parse "1+sin(2x)" : Except Error (Tree Float)) = .error (.unclosedBracket 5) ∧
      (Error.unclosedBracket 8).Alike "1 + sin ( 2 x )".toList "1+sin(2x)".toList
        (.unclosedBracket 5) := by
  have hinked : inked "1 + sin ( 2 x )".toList = inked "1+sin(2x)".toList := by decide
  have hs : (Tree.parse "1 + sin ( 2 x )" : Except Error (Tree Float)) =
      .error (.unclosedBracket 8) := by decide +kernel
  have hs' : (Tree.parse "1+sin(2x)" : Except Error (Tree Float)) =
      .error (.unclosedBracket 5) := by decide +kernel
  obtain ⟨t, ht, -⟩ | ⟨e, e', he, he', halike⟩ := parse_ignores_blanks (α := Float) hinked
  · rw [hs] at ht
    cases ht
  · obtain rfl := Except.error.inj (hs.symm.trans he)
    obtain rfl := Except.error.inj (hs'.symm.trans he')
    exact ⟨hinked, hs, hs', halike⟩

end Tree

end FractalFormula
