import Mathlib
import FractalFormula.Tree.Parser

/-!
# Positions

The parser takes the blanks out of a text and says where it fails by the number of characters
still unread. `positionOf` turns such a number back into a position of the text: that of the
character whose turn it was (`inkAt_positionOf`), or the end of the text if there is none.
-/

namespace FractalFormula.Parser

/-- Ahead of the position `p` stand `k` characters that are not blanks, and another one at it. -/
def InkAt (text : List Char) (k p : Nat) : Prop :=
  (inked (text.take p)).length = k ∧ ∃ c, text[p]? = some c ∧ Text.isBlank c = false

theorem InkAt.lt_length {text : List Char} {k p : Nat} (h : InkAt text k p) : p < text.length := by
  obtain ⟨-, c, hc, -⟩ := h
  exact (List.getElem?_eq_some_iff.mp hc).1

theorem getElem?_append_cons (before after : List Char) (c : Char) :
    (before ++ c :: after)[before.length]? = some c := by
  rw [List.getElem?_append_right (Nat.le_refl _), Nat.sub_self, List.getElem?_cons_zero]

theorem inked_append (s t : List Char) : inked (s ++ t) = inked s ++ inked t :=
  List.filter_append s t

theorem inked_cons {c : Char} (hc : Text.isBlank c = false) (s : List Char) :
    inked (c :: s) = c :: inked s :=
  List.filter_cons_of_pos (by rw [hc]; rfl)

/-- What is split off the text without blanks is split off the text. -/
theorem exists_of_inked_eq_append {text s t : List Char} (h : inked text = s ++ t) :
    ∃ before after, text = before ++ after ∧ inked before = s ∧ inked after = t :=
  List.filter_eq_append_iff.mp h

/-- A character of the text without blanks is one of the text. -/
theorem exists_of_inked_eq {text s t : List Char} {c : Char} (h : inked text = s ++ c :: t) :
    ∃ before after, text = before ++ c :: after ∧ inked before = s ∧ Text.isBlank c = false ∧
      inked after = t := by
  obtain ⟨before, behind, rfl, rfl, hbehind⟩ := exists_of_inked_eq_append h
  obtain ⟨blanks, after, rfl, hblanks, hc, rfl⟩ := List.filter_eq_cons_iff.mp hbehind
  refine ⟨before ++ blanks, after, by rw [List.append_assoc], ?_, by simpa using hc, rfl⟩
  have hnone : inked blanks = [] := List.filter_eq_nil_iff.mpr hblanks
  rw [inked_append, hnone, List.append_nil]

theorem length_filter_zipIdx (text : List Char) (start : Nat) :
    ((text.zipIdx start).filter fun c => !Text.isBlank c.1).length = (inked text).length := by
  have hmap := List.filter_map (f := Prod.fst) (p := fun c => !Text.isBlank c)
    (l := text.zipIdx start)
  rw [List.zipIdx_map_fst] at hmap
  rw [inked, hmap, List.length_map]
  rfl

theorem length_inkedPositions (text : List Char) :
    (inkedPositions text).length = (inked text).length := by
  rw [inkedPositions, List.length_map, length_filter_zipIdx]

theorem inkedPositions_getElem? {c : Char} (hc : Text.isBlank c = false)
    (before after : List Char) :
    (inkedPositions (before ++ c :: after))[(inked before).length]? = some before.length := by
  have hlength : ((before.zipIdx.filter fun c => !Text.isBlank c.1).map (·.2)).length =
      (inked before).length := length_inkedPositions before
  rw [inkedPositions, List.zipIdx_append, List.filter_append, List.map_append, ← hlength,
    List.getElem?_append_right (Nat.le_refl _), Nat.sub_self, List.zipIdx_cons,
    List.filter_cons_of_pos (by rw [hc]; rfl), List.map_cons, List.getElem?_cons_zero,
    Nat.zero_add]

theorem inkAt_append {c : Char} (hc : Text.isBlank c = false) (before after : List Char) :
    InkAt (before ++ c :: after) (inked before).length before.length :=
  ⟨by rw [List.take_left], c, getElem?_append_cons before after c, hc⟩

/-- The position of a character, from what is unread when its turn comes. -/
theorem positionOf_append {c : Char} (hc : Text.isBlank c = false) (before after : List Char) :
    positionOf (before ++ c :: after) ((inked after).length + 1) = before.length := by
  have hturn : (inkedPositions (before ++ c :: after)).length - ((inked after).length + 1) =
      (inked before).length := by
    rw [length_inkedPositions, inked_append, inked_cons hc, List.length_append, List.length_cons]
    omega
  rw [positionOf, hturn, List.getD_eq_getElem?_getD, inkedPositions_getElem? hc,
    Option.getD_some]

/-- When nothing is unread the position is the end of the text. -/
theorem positionOf_zero (text : List Char) : positionOf text 0 = text.length := by
  rw [positionOf, Nat.sub_zero, List.getD_eq_default _ _ (Nat.le_refl _)]

/-- When something is unread the position is that of the next character that is not a blank. -/
theorem inkAt_positionOf {text : List Char} {unread : Nat} (hpos : 0 < unread)
    (hle : unread ≤ (inked text).length) :
    InkAt text ((inked text).length - unread) (positionOf text unread) := by
  have hlt : (inked text).length - unread < (inked text).length := by omega
  have hsplit := List.take_append_drop ((inked text).length - unread) (inked text)
  rw [List.drop_eq_getElem_cons hlt] at hsplit
  obtain ⟨before, after, htext, hbefore, hc, hafter⟩ := exists_of_inked_eq hsplit.symm
  have hunread : unread = (inked after).length + 1 := by
    rw [hafter, List.length_drop]
    omega
  have hturn : (inked text).length - unread = (inked before).length := by
    rw [hbefore, List.length_take]
    omega
  rw [hturn, hunread]
  generalize (inked text)[(inked text).length - unread] = c at htext hc
  rw [htext, positionOf_append hc]
  exact inkAt_append hc before after

/-- The position is that of a character that is not a blank, or the end of the text. -/
def PointsInto (text : List Char) (p : Nat) : Prop :=
  p ≤ text.length ∧ ∀ c, text[p]? = some c → Text.isBlank c = false

theorem pointsInto_positionOf {text : List Char} {unread : Nat}
    (hle : unread ≤ (inked text).length) : PointsInto text (positionOf text unread) := by
  obtain rfl | hpos := Nat.eq_zero_or_pos unread
  · rw [positionOf_zero]
    refine ⟨Nat.le_refl _, fun c hc => ?_⟩
    rw [List.getElem?_eq_none (Nat.le_refl _)] at hc
    cases hc
  · have hink := inkAt_positionOf hpos hle
    obtain ⟨-, c, hc, hblank⟩ := id hink
    refine ⟨Nat.le_of_lt hink.lt_length, fun c' hc' => ?_⟩
    obtain rfl := Option.some.inj (hc.symm.trans hc')
    exact hblank

end FractalFormula.Parser
