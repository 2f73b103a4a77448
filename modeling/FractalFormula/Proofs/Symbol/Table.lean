import Mathlib
import FractalFormula.Proofs.Search
import FractalFormula.Proofs.Text.Order
import FractalFormula.Symbol.Func
import FractalFormula.Symbol.Operator

/-!
# The tables of symbols

The symbols of both tables stand in ascending order, byte for byte, so whatever text is looked up,
the entries of the table stand before it, at it and behind it in this order, and binary search finds
the entry that a scan finds (`Ascending.search_eq_find?`). In particular looking up the name of a
function is the same as going through the list of names (`ofSymbol_eq_named?`).
-/

namespace FractalFormula

section Ascending

variable {α : Type _} {table : Array (String × α)}

/-- Every symbol of the table comes before the symbols behind it. -/
def Ascending (table : Array (String × α)) : Prop :=
  table.toList.Pairwise fun entry later =>
    Text.order entry.1.toList later.1.toList = .lt

theorem Ascending.inOrder (h : Ascending table) (symbol : String) :
    InOrder (fun entry => Text.order entry.1.toList symbol.toList) table :=
  h.imp fun hlt hle => Text.order_eq_lt_of_lt_of_ne_gt hlt hle

theorem Ascending.search_eq_some_iff (h : Ascending table) {symbol : String}
    {entry : String × α} :
    search (fun e => Text.order e.1.toList symbol.toList) table = some entry ↔
      entry ∈ table ∧ entry.1 = symbol := by
  rw [(h.inOrder symbol).search_eq_some_iff, Text.order_eq_eq_iff, String.toList_inj]

theorem Ascending.search_eq_find? (h : Ascending table) (symbol : String) :
    search (fun entry => Text.order entry.1.toList symbol.toList) table =
      table.toList.find? fun entry => entry.1 = symbol := by
  rw [(h.inOrder symbol).search_eq_find?]
  simp only [Text.order_eq_eq_iff, String.toList_inj]

/-- No two entries of the table have the same bytes for their symbols. -/
theorem Ascending.nodup_bytes (h : Ascending table) :
    (table.toList.map fun entry => Text.bytes entry.1).Nodup := by
  refine List.pairwise_map.mpr (h.imp fun {entry later} hlt heq => ?_)
  rw [Text.bytes_inj.mp heq, Text.order_eq_eq_iff.mpr rfl] at hlt
  cases hlt

end Ascending

theorem Operator.table_ascending : Ascending table := by
  unfold Ascending
  decide

theorem Operator.ne_unknown_of_mem_table : ∀ entry ∈ table.toList, entry.2 ≠ .unknown := by decide

namespace Func

/-- The function that the table lists under a name. -/
def named? (name : String) : Option Func :=
  (table.toList.find? fun entry => entry.1 = name).map (·.2)

theorem table_ascending : Ascending table := by
  unfold Ascending
  decide

theorem ne_unknown_of_mem_table : ∀ entry ∈ table.toList, entry.2 ≠ .unknown := by decide

theorem ofSymbol_eq_named? (name : String) : ofSymbol name = (named? name).getD .unknown := by
  rw [ofSymbol, table_ascending.search_eq_find?, named?]

/-- A listed name stands for a function. -/
theorem named?_ne_unknown {name : String} {f : Func} (h : named? name = some f) :
    f ≠ .unknown := by
  obtain ⟨entry, hfind, rfl⟩ := Option.map_eq_some_iff.mp h
  exact ne_unknown_of_mem_table entry (List.mem_of_find?_eq_some hfind)

end Func

end FractalFormula
