/-!
# Binary search

Search in a table whose entries are in ascending order. The question put to an entry is
where it stands relative to what is sought: before it (`lt`), at it (`eq`) or behind it
(`gt`).
-/

namespace FractalFormula

/-- Binary search among the entries from index `low` up to, but not including, `high`. The
range halves at every turn, so its length bounds the number of turns. -/
def searchWithin {α : Type _} (place : α → Ordering) (table : Array α) : Nat → Nat → Nat → Option α
  | 0, _, _ => none
  | turns + 1, low, high =>
    if low < high then
      let middle := (low + high) / 2
      match table[middle]? with
      | none => none
      | some entry =>
        match place entry with
        | .eq => some entry
        | .lt => searchWithin place table turns (middle + 1) high
        | .gt => searchWithin place table turns low middle
    else none

/-- The entry of `table` at what is sought. -/
def search {α : Type _} (place : α → Ordering) (table : Array α) : Option α :=
  searchWithin place table table.size 0 table.size

end FractalFormula
