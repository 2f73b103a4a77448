import FractalFormula.Proofs.Parser.Failure
import FractalFormula.Proofs.Tree.Equality
import FractalFormula.Scalar.ComplexFloat

/-!
# What errors report

An error of the parser names a position of the text as it was given, blanks included, and says
something about what stands there. `Error.Describes` spells out what each error says, and
`Tree.parse_error_describes` that it is so. Where the error says that the parser has come as far as
its position, what stands before the position is a formula by itself.
-/

namespace FractalFormula

open FractalFormula.Parser

/-- The position that an error names. -/
def Error.position? : Error → Option Nat
  | .syntaxError position => some position
  | .unclosedBracket position => some position
  | .unexpectedSymbol position _ => some position
  | _ => none

theorem Parser.Failure.position?_locate (text : List Char) (f : Failure) :
    (f.locate text).position? = f.unread?.map (positionOf text) := by
  cases f <;> rfl

/-- What an error says about the text from which no formula over the scalars `α` was read. -/
def Error.Describes (α : Type) [Numeral α] (text : List Char) : Error → Prop
  | .syntaxError _ => True
  -- Between the bracket and `q` stands a formula, and what comes next does not close the bracket.
  | .unclosedBracket p => text[p]? = some '(' ∧ ∃ q, p < q ∧ q ≤ text.length ∧
      (∃ t : Tree α, Tree.parse (String.ofList ((text.take q).drop (p + 1))) = .ok t) ∧
      (inked (text.drop q)).head? ≠ some ')'
  | .unknownFunction name => Func.named? name = none ∧ name.toList ++ ['('] <:+: inked text
  | .unexpectedSymbol p symbol => text[p]? = some symbol ∧
      ∃ t : Tree α, Tree.parse (String.ofList (text.take p)) = .ok t
  | .unknownVariable _ => False
  | .forbiddenVariable _ _ => False
  | .malformedNode _ => False
  | .config _ => False

namespace Tree

variable {α : Type} [Numeral α]

theorem parse_ofList_eq_ok {text : List Char} {t : Tree α} (h : formula (inked text) = .ok t) :
    Tree.parse (String.ofList text) = .ok t := by
  rw [parse_eq_ok_iff_formula, String.toList_ofList]
  exact h

theorem parse_of_formula_error {text : String} {f : Failure}
    (h : (formula (inked text.toList) : Except Failure (Tree α)) = .error f) :
    (Tree.parse text : Except Error (Tree α)) = .error (f.locate text.toList) := by
  rw [Tree.parse, h]
  rfl

theorem exists_formula_error {text : String} {e : Error}
    (h : (Tree.parse text : Except Error (Tree α)) = .error e) :
    ∃ f, (formula (inked text.toList) : Except Failure (Tree α)) = .error f ∧
      e = f.locate text.toList := by
  rw [Tree.parse] at h
  cases hf : (formula (inked text.toList) : Except Failure (Tree α)) with
  | error f =>
    rw [hf] at h
    exact ⟨f, rfl, (Except.error.inj h).symm⟩
  | ok t =>
    rw [hf] at h
    cases h

/-- A bracket is reported at its place. Behind it stands a formula, and then not the closing
bracket. -/
theorem exists_of_unclosed {text inner rest : List Char}
    (hin : '(' :: (inner ++ rest) <:+ inked text) {t : Tree α} (ht : formula inner = .ok t)
    (hrest : rest.head? ≠ some ')') :
    ∃ before within after, text = before ++ '(' :: (within ++ after) ∧
      positionOf text ((inner ++ rest).length + 1) = before.length ∧
      Tree.parse (String.ofList within) = .ok t ∧ (inked after).head? ≠ some ')' := by
  obtain ⟨ahead, hahead⟩ := hin
  obtain ⟨before, behind, rfl, -, hopen, hbehind⟩ := exists_of_inked_eq hahead.symm
  obtain ⟨within, after, rfl, rfl, rfl⟩ := exists_of_inked_eq_append hbehind
  refine ⟨before, within, after, rfl, ?_, parse_ofList_eq_ok ht, hrest⟩
  rw [← hbehind, positionOf_append hopen]

theorem describes_unclosedBracket {before within after : List Char} {t : Tree α}
    (hparse : Tree.parse (String.ofList within) = .ok t)
    (hafter : (inked after).head? ≠ some ')') :
    (Error.unclosedBracket before.length).Describes α (before ++ '(' :: (within ++ after)) := by
  have hsplit : before ++ '(' :: (within ++ after) = (before ++ '(' :: within) ++ after := by
    rw [List.append_assoc, List.cons_append]
  have hlength : (before ++ '(' :: within).length = before.length + 1 + within.length := by
    rw [List.length_append, List.length_cons]
    omega
  refine ⟨getElem?_append_cons before _ '(', (before ++ '(' :: within).length, by omega, ?_,
    ⟨t, ?_⟩, ?_⟩
  · rw [hsplit]
    exact (List.prefix_append _ after).length_le
  · have hwithin : (before ++ '(' :: within).drop (before.length + 1) = within := by
      rw [← List.drop_drop, List.drop_left, List.drop_one, List.tail_cons]
    rw [hsplit, List.take_left, hwithin]
    exact hparse
  · rw [hsplit, List.drop_left]
    exact hafter

theorem pointsInto_of_parse_error {text : String} {e : Error}
    (h : (Tree.parse text : Except Error (Tree α)) = .error e) {p : Nat}
    (hp : e.position? = some p) : PointsInto text.toList p := by
  obtain ⟨f, hf, rfl⟩ := exists_formula_error h
  rw [Failure.position?_locate] at hp
  obtain ⟨unread, hunread, rfl⟩ := Option.map_eq_some_iff.mp hp
  exact pointsInto_positionOf (unread_le_of_formula_error hf hunread)

theorem describes_of_parse_error {text : String} {e : Error}
    (h : (Tree.parse text : Except Error (Tree α)) = .error e) : e.Describes α text.toList := by
  obtain ⟨f, hf, rfl⟩ := exists_formula_error h
  obtain hwithin | ⟨read, c, rest, hread, ⟨t, ht⟩, rfl⟩ := formula_error hf
  · cases f with
    | unreadable unread => exact trivial
    | unclosed unread =>
      obtain ⟨inner, rest, hin, ⟨t, ht⟩, hrest, rfl⟩ := hwithin
      obtain ⟨before, within, after, htext, hposition, hparse, hafter⟩ :=
        exists_of_unclosed hin ht hrest
      rw [Failure.locate, hposition, htext]
      exact describes_unclosedBracket hparse hafter
    | noFunction name =>
      obtain ⟨hname, rest, ahead, hahead⟩ := hwithin
      refine ⟨hname, ahead, rest, ?_⟩
      rw [← hahead, String.toList_ofList, List.append_assoc, List.append_assoc,
        List.singleton_append]
    | leftover unread symbol => exact hwithin.elim
  · obtain ⟨before, after, htext, rfl, hc, rfl⟩ := exists_of_inked_eq hread
    rw [Failure.locate, htext, positionOf_append hc]
    refine ⟨getElem?_append_cons before after c, t, ?_⟩
    rw [List.take_left]
    exact parse_ofList_eq_ok ht

/-- An error of the parser names a position of the text, which is that of a character that is not a
blank or the end of the text, and what it says about the text is so. -/
theorem parse_error_describes {text : String} {e : Error}
    (h : (Tree.parse text : Except Error (Tree α)) = .error e) :
    (∀ p, e.position? = some p → PointsInto text.toList p) ∧ e.Describes α text.toList :=
  ⟨fun _ => pointsInto_of_parse_error h, describes_of_parse_error h⟩

/-- A product without its sign in the argument of a function: the bracket of the call is reported,
although it is closed, because the argument was read up to `x` only. -/
theorem parse_error_describes_juxtaposition :
    (Tree.parse "1 + sin( 2 x )" : Except Error (Tree ComplexFloat)) =
        .error (.unclosedBracket 7) ∧
      PointsInto "1 + sin( 2 x )".toList 7 ∧
      (Error.unclosedBracket 7).Describes ComplexFloat "1 + sin( 2 x )".toList := by
  have h : (Tree.parse "1 + sin( 2 x )" : Except Error (Tree ComplexFloat)) =
      .error (.unclosedBracket 7) := by decide +kernel
  obtain ⟨hposition, hdescribes⟩ := parse_error_describes h
  exact ⟨h, hposition 7 rfl, hdescribes⟩

end Tree

end FractalFormula
