import FractalFormula.Proofs.Text.Replace
import FractalFormula.Shader.Template

/-!
# Splicing as one substitution

A template, read once from left to right, falls into markers and single characters (`pieces`),
whatever the markers stand for. The two replacements, one after the other, put a text in the place of
each marker and leave the rest alone (`replace_replace`). The formula is put in last, so it is not
read again. The prelude is, and that is harmless for three reasons: no marker begins in it, no marker
that begins before it goes on into it, since it begins with a line break, and no two markers overlap.
-/

namespace FractalFormula

open Text

/-! ### The characters of the prelude -/

namespace Prelude

/-- The characters of a literal, read off without going through its bytes. -/
theorem toList_of_eq_ofList {s : String} {l : List Char} (h : s = String.ofList l) :
    s.toList = l := by
  rw [h, String.toList_ofList]

theorem toList_foldl (start : String) (definitions : List Definition) :
    (definitions.foldl (fun text d => text ++ d.text) start).toList =
      start.toList ++ definitions.flatMap fun d => d.text.toList := by
  induction definitions generalizing start with
  | nil => simp
  | cons d definitions ih =>
    rw [List.foldl_cons, ih, String.toList_append, List.flatMap_cons, List.append_assoc]

theorem toList_text : text.toList = '\n' :: definitions.flatMap fun d => d.text.toList :=
  toList_foldl "\n" definitions

end Prelude

namespace Template

/-! ### Markers -/

inductive Marker where
  | formula
  | prelude
  deriving DecidableEq

namespace Marker

/-- How the marker is written. -/
def text : Marker → List Char
  | formula => formulaMarker.toList
  | prelude => preludeMarker.toList

/-- What stands in the place of the marker after splicing. -/
def filling (fragment : List Char) : Marker → List Char
  | formula => fragment
  | prelude => Prelude.text.toList

theorem text_ne_nil (m : Marker) : m.text ≠ [] := by
  cases m <;> decide

theorem not_mem_text (m : Marker) : '\n' ∉ m.text := by
  cases m <;> decide

theorem avoids_text {m n : Marker} (h : m ≠ n) : avoids m.text n.text := by
  revert h
  cases m <;> cases n <;> decide

/-- No marker begins inside a marker. -/
theorem avoids_tail_text (m n : Marker) : avoids m.text n.text.tail := by
  cases m <;> cases n <;> decide

theorem avoids_definition :
    ∀ d ∈ Prelude.definitions, avoids (text formula) d.text.toList := by
  simp only [Prelude.definitions, List.forall_mem_cons, Prelude.Definition.text,
    String.toList_append, Prelude.toList_of_eq_ofList rfl]
  decide +kernel

theorem avoids_prelude : avoids (text formula) Prelude.text.toList := by
  have hbreak : avoids (text formula) ['\n'] := by decide
  have hdefinitions : avoids (text formula) (Prelude.definitions.flatMap fun d => d.text.toList) :=
    avoids_flatMap avoids_definition
  rw [Prelude.toList_text, ← List.singleton_append]
  exact avoids_append hbreak hdefinitions

theorem eq_of_prefix {m n : Marker} {text : List Char} (hm : m.text <+: text)
    (hn : n.text <+: text) : m = n := by
  obtain ⟨rest, rfl⟩ := hn
  by_contra hne
  exact not_prefix_of_avoids (avoids_text hne) n.text_ne_nil rest hm

end Marker

/-- The marker that the text begins with. -/
def marker? (text : List Char) : Option Marker :=
  [.formula, .prelude].find? fun m => m.text.isPrefixOf text

theorem prefix_of_marker?_eq_some {text : List Char} {m : Marker} (h : marker? text = some m) :
    m.text <+: text := by
  have hbegins : m.text.isPrefixOf text :=
    List.find?_some (p := fun m : Marker => m.text.isPrefixOf text) h
  exact List.isPrefixOf_iff_prefix.mp hbegins

theorem marker?_eq_none_iff {text : List Char} :
    marker? text = none ↔ ∀ m : Marker, ¬m.text <+: text := by
  simp only [marker?, List.find?_eq_none, List.isPrefixOf_iff_prefix]
  constructor
  · rintro h (_ | _) <;> simp [h]
  · exact fun h m _ => h m

theorem marker?_append (m : Marker) (rest : List Char) : marker? (m.text ++ rest) = some m := by
  have hm := List.prefix_append m.text rest
  cases h : marker? (m.text ++ rest) with
  | none => exact absurd hm (marker?_eq_none_iff.mp h m)
  | some n => rw [Marker.eq_of_prefix (prefix_of_marker?_eq_some h) hm]

/-! ### Pieces -/

/-- A piece of a template. -/
inductive Piece where
  | marker (m : Marker)
  | char (c : Char)

/-- How the piece is written. -/
def Piece.written : Piece → List Char
  | marker m => m.text
  | char c => [c]

/-- What stands in the place of the piece after splicing. -/
def Piece.filled (fragment : List Char) : Piece → List Char
  | marker m => m.filling fragment
  | char c => [c]

/-- The pieces of a text, read from left to right. -/
def pieces : List Char → List Piece
  | [] => []
  | c :: rest =>
    match marker? (c :: rest) with
    | some m => .marker m :: pieces (rest.drop (m.text.length - 1))
    | none => .char c :: pieces rest
  termination_by text => text.length
  decreasing_by all_goals grind

@[simp] theorem pieces_nil : pieces [] = [] := by rw [pieces]

theorem pieces_char {c : Char} {rest : List Char} (h : ∀ m : Marker, ¬m.text <+: c :: rest) :
    pieces (c :: rest) = .char c :: pieces rest := by
  rw [pieces, marker?_eq_none_iff.mpr h]

theorem pieces_marker (m : Marker) (rest : List Char) :
    pieces (m.text ++ rest) = .marker m :: pieces rest := by
  obtain ⟨c, tail, htext⟩ := List.exists_cons_of_ne_nil m.text_ne_nil
  have hmarker := marker?_append m rest
  rw [htext, List.cons_append] at hmarker ⊢
  simp [pieces, hmarker, htext]

/-- A text is empty, or begins with a marker or with a character at which none begins. -/
theorem pieces_induction {motive : List Char → Prop} (nil : motive [])
    (marker : ∀ (m : Marker) rest, motive rest → motive (m.text ++ rest))
    (char : ∀ c rest, (∀ m : Marker, ¬m.text <+: c :: rest) → motive rest → motive (c :: rest))
    (text : List Char) : motive text := by
  induction hlength : text.length using Nat.strong_induction_on generalizing text with
  | _ length ih =>
    subst hlength
    by_cases hmarker : ∃ m : Marker, m.text <+: text
    · obtain ⟨m, rest, rfl⟩ := hmarker
      have hshorter : rest.length < (m.text ++ rest).length := by
        simp [List.length_pos_iff.mpr m.text_ne_nil]
      exact marker m rest (ih _ hshorter rest rfl)
    · cases text with
      | nil => exact nil
      | cons c rest => exact char c rest (not_exists.mp hmarker) (ih _ (by simp) rest rfl)

theorem flatMap_written_pieces (text : List Char) : (pieces text).flatMap Piece.written = text := by
  induction text using pieces_induction with
  | nil => simp
  | marker m rest ih => rw [pieces_marker, List.flatMap_cons, ih, Piece.written]
  | char c rest hnone ih =>
    rw [pieces_char hnone, List.flatMap_cons, ih, Piece.written, List.singleton_append]

/-- Wherever a marker stands, it is a piece of the text. -/
theorem pieces_append_marker (before : List Char) (m : Marker) (after : List Char) :
    pieces (before ++ (m.text ++ after)) = pieces before ++ .marker m :: pieces after := by
  induction before using pieces_induction with
  | nil => simp [pieces_marker]
  | marker n rest ih => rw [List.append_assoc, pieces_marker, ih, pieces_marker, List.cons_append]
  | char c rest hnone ih =>
    have hchar : ∀ n : Marker, ¬n.text <+: c :: (rest ++ (m.text ++ after)) := fun n hbegins =>
      hnone n (prefix_of_prefix_append (m.avoids_tail_text n) (List.cons_ne_nil c rest) hbegins)
    rw [List.cons_append, pieces_char hchar, ih, pieces_char hnone, List.cons_append]

/-! ### Splicing -/

/-- Replacing the marker of the formula in what replacing that of the prelude leaves fills the pieces
of the text. -/
theorem replace_replace (fragment text : List Char) :
    replace Marker.formula.text fragment
        (replace Marker.prelude.text Prelude.text.toList text) =
      (pieces text).flatMap (Piece.filled fragment) := by
  induction text using pieces_induction with
  | nil => simp
  | marker m rest ih =>
    rw [pieces_marker, List.flatMap_cons, ← ih]
    cases m with
    | formula =>
      rw [replace_append_of_avoids (Marker.avoids_text (by decide)),
        replace_mark_append Marker.formula.text_ne_nil]
      rfl
    | prelude =>
      rw [replace_mark_append Marker.prelude.text_ne_nil,
        replace_append_of_avoids Marker.avoids_prelude]
      rfl
  | char c rest hnone ih =>
    -- A marker of the formula that begins here and was not in the text would hold the line break
    -- with which the prelude begins.
    have hformula : ¬Marker.formula.text <+:
        c :: replace Marker.prelude.text Prelude.text.toList rest := by
      rw [Prelude.toList_text]
      exact not_prefix_cons_replace Marker.formula.not_mem_text (hnone .formula)
    rw [pieces_char hnone, List.flatMap_cons, ← ih, replace_cons (hnone .prelude),
      replace_cons hformula]
    rfl

theorem splice_of_occurs {template fragment : String}
    (h : formulaMarker.toList <:+: template.toList) :
    splice template fragment =
      .ok (String.ofList ((pieces template.toList).flatMap (Piece.filled fragment.toList))) := by
  rw [← replace_replace, splice, if_pos (occurs_iff.mpr h)]
  rfl

theorem splice_of_not_occurs {template fragment : String}
    (h : ¬formulaMarker.toList <:+: template.toList) :
    splice template fragment = .error (.config (.noMarker formulaMarker)) :=
  if_neg (mt occurs_iff.mp h)

/-- Splicing fails just when the template has no marker for the formula. Otherwise it is one
substitution: the pieces that spell the template, with each marker filled in and each other character
as it was. No marker of the template is missed. -/
theorem splice_eq_filled_pieces (template fragment : String) :
    (splice template fragment = .error (.config (.noMarker formulaMarker)) ↔
      ¬formulaMarker.toList <:+: template.toList) ∧
    (∀ result, splice template fragment = .ok result ↔
      formulaMarker.toList <:+: template.toList ∧
        result.toList = (pieces template.toList).flatMap (Piece.filled fragment.toList)) ∧
    (pieces template.toList).flatMap Piece.written = template.toList ∧
    ∀ before (m : Marker) after,
      pieces (before ++ (m.text ++ after)) = pieces before ++ .marker m :: pieces after := by
  refine ⟨?_, fun result => ?_, flatMap_written_pieces _, pieces_append_marker⟩
  all_goals by_cases h : formulaMarker.toList <:+: template.toList
  · simp [splice_of_occurs h, h]
  · simp [splice_of_not_occurs h, h]
  · rw [splice_of_occurs h, Except.ok.injEq, ← String.toList_inj, String.toList_ofList, eq_comm]
    exact (and_iff_right h).symm
  · simp [splice_of_not_occurs h, h]

-- A fragment that is itself a marker stays as it is.
example : splice "\x7b\x7bFORMULA\x7d\x7d;" preludeMarker = .ok "\x7b\x7bPRELUDE\x7d\x7d;" := by
  rfl

end Template

end FractalFormula
