import Mathlib
import FractalFormula.Search

/-!
# What binary search finds

A search looks at one entry of the range that is left and drops the half in which what is sought
cannot stand. That is sound in a table whose entries stand before what is sought, at it and behind
it in this order, with no two at it (`InOrder`): there the search finds whatever a scan from the
start of the table finds (`InOrder.search_eq_find?`).
-/

namespace FractalFormula

variable {α : Type _} {place : α → Ordering} {table : Array α}

/-- What comes in the table ahead of an entry at what is sought, or before it, stands before it. -/
def InOrder (place : α → Ordering) (table : Array α) : Prop :=
  table.toList.Pairwise fun entry later => place later ≠ .gt → place entry = .lt

/-- Whatever the table, the entry that a search returns is one of it, at what is sought. -/
theorem searchWithin_eq_some {turns low high : Nat} {entry : α}
    (h : searchWithin place table turns low high = some entry) :
    entry ∈ table ∧ place entry = .eq := by
  induction turns generalizing low high with
  | zero => simp [searchWithin] at h
  | succ turns ih =>
    rw [searchWithin] at h
    split at h
    · simp only at h
      split at h
      · simp at h
      · next e he =>
        split at h
        · next hp =>
          obtain rfl := Option.some.inj h
          exact ⟨Array.mem_of_getElem? he, hp⟩
        · exact ih h
        · exact ih h
    · simp at h

namespace InOrder

theorem place_eq_lt (h : InOrder place table) {i j : Nat} (hij : i < j) (hj : j < table.size)
    (hplace : place table[j] ≠ .gt) : place table[i] = .lt :=
  List.pairwise_iff_getElem.mp h i j (by simpa using hij.trans hj) (by simpa using hj) hij hplace

/-- The entry sought stays in the range that is left, and a range of one entry is looked at. -/
theorem searchWithin_eq (h : InOrder place table) {k : Nat} (hk : k < table.size)
    (hplace : place table[k] = .eq) {turns low high : Nat} (hlow : low ≤ k) (hhigh : k < high)
    (hsize : high ≤ table.size) (hturns : high ≤ low + turns) :
    searchWithin place table turns low high = some table[k] := by
  induction turns generalizing low high with
  | zero => omega
  | succ turns ih =>
    have hmiddle : (low + high) / 2 < table.size := by omega
    rw [searchWithin, if_pos (by omega)]
    simp only [Array.getElem?_eq_getElem hmiddle]
    obtain hlt | heq | hgt := lt_trichotomy ((low + high) / 2) k
    · have hbefore := h.place_eq_lt hlt hk (by simp [hplace])
      simp only [hbefore]
      exact ih (by omega) hhigh hsize (by omega)
    · simp only [heq, hplace]
    · have hbehind : place table[(low + high) / 2] = .gt := by
        by_contra hne
        have := h.place_eq_lt hgt hmiddle hne
        simp [hplace] at this
      simp only [hbehind]
      exact ih hlow hgt (by omega) (by omega)

theorem search_eq_some_iff (h : InOrder place table) {entry : α} :
    search place table = some entry ↔ entry ∈ table ∧ place entry = .eq := by
  constructor
  · exact searchWithin_eq_some
  · rintro ⟨hmem, hplace⟩
    obtain ⟨k, hk, rfl⟩ := Array.mem_iff_getElem.mp hmem
    exact h.searchWithin_eq hk hplace (Nat.zero_le k) hk le_rfl (by omega)

/-- Binary search finds what a scan finds. -/
theorem search_eq_find? (h : InOrder place table) :
    search place table = table.toList.find? fun entry => place entry = .eq := by
  cases hfind : table.toList.find? fun entry => place entry = .eq with
  | none =>
    rw [Option.eq_none_iff_forall_ne_some]
    intro entry hsearch
    obtain ⟨hmem, hplace⟩ := h.search_eq_some_iff.mp hsearch
    exact absurd hplace (by simpa using List.find?_eq_none.mp hfind entry (by simpa using hmem))
  | some entry =>
    refine h.search_eq_some_iff.mpr ⟨?_, by simpa using List.find?_some hfind⟩
    simpa using List.mem_of_find?_eq_some hfind

end InOrder

end FractalFormula
