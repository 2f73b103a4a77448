import Mathlib
import FractalFormula.Tree.Basic

/-!
# The nodes of a tree

The numbers and the names that stand in a tree, those below a number or a variable among them, and
properties that all nodes of a tree have.
-/

namespace FractalFormula.Tree

variable {α : Type _}

/-! ### Numbers -/

mutual

/-- The numbers of all number nodes. -/
def numbers : Tree α → List α
  | .node (.num x) cs => x :: numbersAll cs
  | .node _ cs => numbersAll cs

/-- The numbers of a list of trees. -/
def numbersAll : List (Tree α) → List α
  | [] => []
  | t :: ts => t.numbers ++ numbersAll ts

end

theorem mem_numbersAll_iff {x : α} {ts : List (Tree α)} :
    x ∈ numbersAll ts ↔ ∃ t ∈ ts, x ∈ t.numbers := by
  induction ts with
  | nil => simp [numbersAll]
  | cons t ts ih => simp [numbersAll, ih]

theorem mem_numbers_iff {x : α} {l : Label α} {cs : List (Tree α)} :
    x ∈ (Tree.node l cs).numbers ↔ l = .num x ∨ ∃ c ∈ cs, x ∈ c.numbers := by
  cases l with
  | num y => simp [numbers, mem_numbersAll_iff, eq_comm]
  | _ => simp [numbers, mem_numbersAll_iff]

/-- All numbers of the tree have the property `p`. -/
def NumbersAre (p : α → Prop) (t : Tree α) : Prop := ∀ x ∈ t.numbers, p x

theorem numbersAre_iff {p : α → Prop} {l : Label α} {cs : List (Tree α)} :
    (Tree.node l cs).NumbersAre p ↔ (∀ x, l = .num x → p x) ∧ ∀ c ∈ cs, c.NumbersAre p := by
  constructor
  · intro h
    exact ⟨fun x hl => h x (mem_numbers_iff.mpr (.inl hl)),
      fun c hc x hx => h x (mem_numbers_iff.mpr (.inr ⟨c, hc, hx⟩))⟩
  · rintro ⟨hl, hcs⟩ x hx
    obtain rfl | ⟨c, hc, hx⟩ := mem_numbers_iff.mp hx
    · exact hl x rfl
    · exact hcs c hc x hx

theorem numbersAre_num_iff {p : α → Prop} {x : α} : (num x).NumbersAre p ↔ p x := by
  rw [num, numbersAre_iff]
  simp

/-! ### Names -/

theorem mem_namesAll_iff {name : String} {ts : List (Tree α)} :
    name ∈ namesAll ts ↔ ∃ t ∈ ts, name ∈ t.names := by
  induction ts with
  | nil => simp [namesAll]
  | cons t ts ih => simp [namesAll, ih]

theorem mem_names_iff {name : String} {l : Label α} {cs : List (Tree α)} :
    name ∈ (Tree.node l cs).names ↔ l = .var name ∨ ∃ c ∈ cs, name ∈ c.names := by
  cases l with
  | var v => simp [names, mem_namesAll_iff, eq_comm]
  | _ => simp [names, mem_namesAll_iff]

theorem mem_insertName_iff {name other : String} {names : List String} :
    other ∈ insertName name names ↔ other = name ∨ other ∈ names := by
  induction names with
  | nil => simp [insertName]
  | cons n names ih =>
    rw [insertName]
    cases horder : Text.order name.toList n.toList with
    | lt => simp
    | eq =>
      obtain rfl := String.toList_inj.mp (Text.order_eq_eq_iff.mp horder)
      simp
    | gt => simp [ih, or_left_comm]

/-- The set of the names of a tree has all of them. -/
theorem mem_nameSet_iff {name : String} {t : Tree α} : name ∈ t.nameSet ↔ name ∈ t.names := by
  have hfold (names : List String) : name ∈ names.foldr insertName [] ↔ name ∈ names := by
    induction names with
    | nil => rfl
    | cons n names ih => rw [List.foldr_cons, mem_insertName_iff, ih, List.mem_cons]
  exact hfold t.names

/-! ### All nodes -/

/-- Every node of the tree has the property `P`. -/
inductive Everywhere (P : Label α → List (Tree α) → Prop) : Tree α → Prop where
  | node {l : Label α} {cs : List (Tree α)} : P l cs → (∀ c ∈ cs, Everywhere P c) →
    Everywhere P (.node l cs)

section

variable {P : Label α → List (Tree α) → Prop} {l : Label α}

theorem everywhere_iff {cs : List (Tree α)} :
    (Tree.node l cs).Everywhere P ↔ P l cs ∧ ∀ c ∈ cs, c.Everywhere P := by
  refine ⟨fun h => ?_, fun h => .node h.1 h.2⟩
  cases h with
  | node hnode hcs => exact ⟨hnode, hcs⟩

theorem everywhere_leaf_iff : (Tree.node l []).Everywhere P ↔ P l [] := by
  simp [everywhere_iff]

theorem everywhere_one_iff {t : Tree α} :
    (Tree.node l [t]).Everywhere P ↔ P l [t] ∧ t.Everywhere P := by
  simp [everywhere_iff]

theorem everywhere_two_iff {s t : Tree α} :
    (Tree.node l [s, t]).Everywhere P ↔ P l [s, t] ∧ s.Everywhere P ∧ t.Everywhere P := by
  simp [everywhere_iff]

theorem Everywhere.mono {Q : Label α → List (Tree α) → Prop} {t : Tree α} (h : t.Everywhere P)
    (hPQ : ∀ l cs, P l cs → Q l cs) : t.Everywhere Q := by
  induction h with
  | node hnode _ ih => exact .node (hPQ _ _ hnode) ih

end

end FractalFormula.Tree
