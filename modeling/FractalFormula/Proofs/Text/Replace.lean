import Mathlib
import FractalFormula.Text.Replace

/-!
# Replacing marks in text

Replacement goes through a text from left to right, so it can be followed from one occurrence of the
mark to the next (`replace_mark_append`, `replace_cons`). A text that the mark cannot begin in,
whatever comes behind it (`avoids`), is passed over as a whole (`replace_append_of_avoids`).
-/

namespace FractalFormula.Text

variable {mark new text : List Char}

theorem occurs_iff : occurs mark text ↔ mark <:+: text := by
  induction text with
  | nil => simp [occurs]
  | cons c text ih =>
    rw [occurs, Bool.or_eq_true, ih, List.isPrefixOf_iff_prefix, List.infix_cons_iff]

/-! ### From occurrence to occurrence -/

theorem replaceFrom_append (skipped : List Char) :
    replaceFrom mark new skipped.length (skipped ++ text) = replace mark new text := by
  induction skipped with
  | nil => rfl
  | cons c skipped ih => exact ih

@[simp] theorem replace_nil : replace mark new [] = [] := rfl

theorem replace_mark_append (hmark : mark ≠ []) :
    replace mark new (mark ++ text) = new ++ replace mark new text := by
  obtain ⟨c, rest, rfl⟩ := List.exists_cons_of_ne_nil hmark
  have hbegins := List.isPrefixOf_iff_prefix.mpr (List.prefix_append (c :: rest) text)
  exact (if_pos hbegins).trans (congrArg (new ++ ·) (replaceFrom_append rest))

theorem replace_cons {c : Char} (h : ¬mark <+: c :: text) :
    replace mark new (c :: text) = c :: replace mark new text :=
  if_neg (mt List.isPrefixOf_iff_prefix.mp h)

/-! ### Where a mark cannot begin -/

/-- Whether the mark does not begin in the text, and could not begin there either if the text went
on. -/
def avoids (mark : List Char) : List Char → Bool
  | [] => true
  | c :: rest =>
    !mark.isPrefixOf (c :: rest) && !(c :: rest).isPrefixOf mark && avoids mark rest

theorem avoids_cons_iff {c : Char} : avoids mark (c :: text) ↔
    (¬mark <+: c :: text ∧ ¬c :: text <+: mark) ∧ avoids mark text := by
  simp [avoids, ← List.isPrefixOf_iff_prefix]

theorem not_prefix_of_avoids (h : avoids mark text) (htext : text ≠ []) (rest : List Char) :
    ¬mark <+: text ++ rest := by
  obtain ⟨c, text, rfl⟩ := List.exists_cons_of_ne_nil htext
  obtain ⟨⟨hmark, hbegins⟩, -⟩ := avoids_cons_iff.mp h
  intro happend
  obtain hle | hle := List.prefix_or_prefix_of_prefix happend (List.prefix_append _ rest)
  · exact hmark hle
  · exact hbegins hle

theorem avoids_append {before after : List Char} (hbefore : avoids mark before)
    (hafter : avoids mark after) : avoids mark (before ++ after) := by
  induction before with
  | nil => exact hafter
  | cons c before ih =>
    obtain ⟨⟨hmark, hbegins⟩, hrest⟩ := avoids_cons_iff.mp hbefore
    refine avoids_cons_iff.mpr ⟨⟨?_, ?_⟩, ih hrest⟩
    · exact not_prefix_of_avoids hbefore (List.cons_ne_nil c before) after
    · exact fun h => hbegins ((List.prefix_append (c :: before) after).trans h)

theorem avoids_flatMap {α : Type} {f : α → List Char} {xs : List α}
    (h : ∀ x ∈ xs, avoids mark (f x)) : avoids mark (xs.flatMap f) := by
  induction xs with
  | nil => rfl
  | cons x xs ih =>
    obtain ⟨hx, hxs⟩ := List.forall_mem_cons.mp h
    exact avoids_append hx (ih hxs)

theorem avoids_of_append {before after : List Char} (h : avoids mark (before ++ after)) :
    avoids mark after := by
  induction before with
  | nil => exact h
  | cons c before ih => exact ih (avoids_cons_iff.mp h).2

theorem replace_append_of_avoids (h : avoids mark text) (rest : List Char) :
    replace mark new (text ++ rest) = text ++ replace mark new rest := by
  induction text with
  | nil => rfl
  | cons c text ih =>
    have hbegins : ¬mark <+: c :: (text ++ rest) :=
      not_prefix_of_avoids h (List.cons_ne_nil c text) rest
    rw [List.cons_append, replace_cons hbegins, ih (avoids_cons_iff.mp h).2, List.cons_append]

/-- A mark that begins in `before` ends there too, if the text behind begins with `next`, which
cannot begin inside the mark. -/
theorem prefix_of_prefix_append {before next : List Char} (h : avoids next mark.tail)
    (hbefore : before ≠ []) (hbegins : mark <+: before ++ (next ++ text)) : mark <+: before := by
  obtain hle | ⟨rest, rfl⟩ :=
    List.prefix_or_prefix_of_prefix hbegins (List.prefix_append before _)
  · exact hle
  · have hrest : avoids next rest := by
      rw [List.tail_append_of_ne_nil hbefore] at h
      exact avoids_of_append h
    have hmark : rest <+: next ++ text := (List.prefix_append_right_inj before).mp hbegins
    cases rest with
    | nil => simp
    | cons c rest =>
      obtain ⟨⟨hleft, hright⟩, -⟩ := avoids_cons_iff.mp hrest
      obtain hle | hle := List.prefix_or_prefix_of_prefix hmark (List.prefix_append next text)
      · exact absurd hle hright
      · exact absurd hle hleft

/-- What a text begins with after a replacement it began with before, unless the first character of
the new text is in it. -/
theorem prefix_of_prefix_replace {start : List Char} {x : Char} (hx : x ∉ start)
    (h : start <+: replace mark (x :: new) text) : start <+: text := by
  induction start generalizing text with
  | nil => exact List.nil_prefix
  | cons a start ih =>
    obtain ⟨ha, hstart⟩ := not_or.mp (mt List.mem_cons.mpr hx)
    cases text with
    | nil => simp at h
    | cons c text =>
      by_cases hmark : mark <+: c :: text
      · have hreplace : replace mark (x :: new) (c :: text) =
            x :: new ++ replaceFrom mark (x :: new) (mark.length - 1) text :=
          if_pos (List.isPrefixOf_iff_prefix.mpr hmark)
        rw [hreplace, List.cons_append] at h
        exact absurd (List.cons_prefix_cons.mp h).1.symm ha
      · rw [replace_cons hmark] at h
        obtain ⟨rfl, hbegins⟩ := List.cons_prefix_cons.mp h
        exact List.cons_prefix_cons.mpr ⟨rfl, ih hstart hbegins⟩

theorem not_prefix_cons_replace {other : List Char} {c x : Char} (hx : x ∉ other)
    (h : ¬other <+: c :: text) : ¬other <+: c :: replace mark (x :: new) text := by
  cases other with
  | nil => exact absurd List.nil_prefix h
  | cons b other =>
    rw [List.cons_prefix_cons] at h ⊢
    rintro ⟨hb, hother⟩
    exact h ⟨hb, prefix_of_prefix_replace (List.not_mem_of_not_mem_cons hx) hother⟩

end FractalFormula.Text
