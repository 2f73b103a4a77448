import Mathlib
import FractalFormula.Tree.Basic

/-!
# Equality of trees

Trees over scalars with decidable equality have it too. This equality tells numbers apart that
compare as equal, such as the two zeros; `same` does not, but takes a NaN for different from
itself.
-/

namespace FractalFormula

namespace Tree

variable {α : Type _}

mutual

/-- Trees are compared node by node. -/
def decEq [DecidableEq α] : (s t : Tree α) → Decidable (s = t)
  | .node l cs, .node m ds =>
    if hl : l = m then
      match decEqAll cs ds with
      | isTrue hc => isTrue (by rw [hl, hc])
      | isFalse hc => isFalse fun h => hc (Tree.node.inj h).2
    else isFalse fun h => hl (Tree.node.inj h).1

/-- Lists of trees are compared tree by tree. -/
def decEqAll [DecidableEq α] : (ss ts : List (Tree α)) → Decidable (ss = ts)
  | [], [] => isTrue rfl
  | s :: ss, t :: ts =>
    match decEq s t, decEqAll ss ts with
    | isTrue h, isTrue h' => isTrue (by rw [h, h'])
    | isFalse h, _ => isFalse fun heq => h (List.cons.inj heq).1
    | _, isFalse h => isFalse fun heq => h (List.cons.inj heq).2
  | [], _ :: _ => isFalse nofun
  | _ :: _, [] => isFalse nofun

end

instance [DecidableEq α] : DecidableEq (Tree α) := decEq

/-! ### The same structure -/

variable [BEq α]

theorem same_iff {l m : Label α} {cs ds : List (Tree α)} :
    (Tree.node l cs).same (.node m ds) ↔ sameLabel l m ∧ sameAll cs ds :=
  Bool.and_eq_true_iff

theorem sameAll_cons_iff {s t : Tree α} {ss ts : List (Tree α)} :
    sameAll (s :: ss) (t :: ts) ↔ s.same t ∧ sameAll ss ts :=
  Bool.and_eq_true_iff

theorem same_num {x : α} (h : (x == x) = true) : (num x).same (num x) := same_iff.mpr ⟨h, rfl⟩

theorem same_var (name : String) : (var name : Tree α).same (var name) :=
  same_iff.mpr ⟨decide_eq_true rfl, rfl⟩

theorem same_call (f : Func) {t : Tree α} (h : t.same t) : (call f t).same (call f t) :=
  same_iff.mpr ⟨decide_eq_true rfl, sameAll_cons_iff.mpr ⟨h, rfl⟩⟩

theorem same_negation {t : Tree α} (h : t.same t) : (negation t).same (negation t) :=
  same_iff.mpr ⟨rfl, sameAll_cons_iff.mpr ⟨h, rfl⟩⟩

theorem same_binary (o : Operator) {l r : Tree α} (hl : l.same l) (hr : r.same r) :
    (binary o l r).same (binary o l r) :=
  same_iff.mpr ⟨decide_eq_true rfl, sameAll_cons_iff.mpr ⟨hl, sameAll_cons_iff.mpr ⟨hr, rfl⟩⟩⟩

theorem eq_of_sameLabel (h : ∀ x y : α, (x == y) = true → x = y) {l m : Label α}
    (hlm : sameLabel l m) : l = m := by
  unfold sameLabel at hlm
  split at hlm
  · rw [of_decide_eq_true hlm]
  · rw [of_decide_eq_true hlm]
  · rw [of_decide_eq_true hlm]
  · rw [h _ _ hlm]
  · nomatch hlm

mutual

/-- Trees of the same structure are equal if numbers that compare as equal are. -/
theorem eq_of_same (h : ∀ x y : α, (x == y) = true → x = y) :
    ∀ {s t : Tree α}, s.same t → s = t
  | .node l cs, .node m ds, hst => by
    obtain ⟨hlabel, hcs⟩ := same_iff.mp hst
    rw [eq_of_sameLabel h hlabel, eq_of_sameAll h hcs]

theorem eq_of_sameAll (h : ∀ x y : α, (x == y) = true → x = y) :
    ∀ {ss ts : List (Tree α)}, sameAll ss ts → ss = ts
  | [], [], _ => rfl
  | s :: ss, t :: ts, hst => by
    obtain ⟨hs, hss⟩ := sameAll_cons_iff.mp hst
    rw [eq_of_same h hs, eq_of_sameAll h hss]

end

end Tree

end FractalFormula
