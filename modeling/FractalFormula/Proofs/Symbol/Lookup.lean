import Mathlib
import FractalFormula.Proofs.Symbol.Table

/-!
# Looking symbols up

`ExactLookup` says without a search what it is to look a text up in a table of symbols: a text
stands for what the table says of the symbol with the same bytes, and for `unknown` if there is
none. Binary search in any ascending table is exact in this sense (`Ascending.exactLookup`), so the
names of functions and the signs of operators are found whenever they are listed, and nothing else
is.
-/

namespace FractalFormula

/-- What `lookup` answers for a text is what `table` says of it, and `unknown` where the table says
nothing. -/
structure ExactLookup {α : Type _} (table : Array (String × α)) (unknown : α)
    (lookup : String → α) : Prop where
  /-- A text with the bytes of a symbol stands for what the table says of the symbol. -/
  listed : ∀ entry ∈ table, ∀ symbol, Text.bytes symbol = Text.bytes entry.1 →
    lookup symbol = entry.2
  /-- Exactly the texts whose bytes no symbol has stand for `unknown`. -/
  unlisted : ∀ symbol, lookup symbol = unknown ↔
    ∀ entry ∈ table, Text.bytes symbol ≠ Text.bytes entry.1
  /-- Going through the table from its start gives the same answer. -/
  scanned : ∀ symbol, lookup symbol =
    ((table.toList.find? fun entry => Text.bytes entry.1 = Text.bytes symbol).map (·.2)).getD
      unknown
  /-- No symbol has two entries. -/
  distinct : (table.toList.map fun entry => Text.bytes entry.1).Nodup

/-- Binary search by symbol in an ascending table is exact. -/
theorem Ascending.exactLookup {α : Type _} {table : Array (String × α)} {unknown : α}
    (h : Ascending table) (hknown : ∀ entry ∈ table, entry.2 ≠ unknown) :
    ExactLookup table unknown fun symbol =>
      ((search (fun entry => Text.order entry.1.toList symbol.toList) table).map (·.2)).getD
        unknown := by
  constructor
  case listed =>
    intro entry hmem symbol hbytes
    have hfound := h.search_eq_some_iff.mpr ⟨hmem, (Text.bytes_inj.mp hbytes).symm⟩
    simp only [hfound, Option.map_some, Option.getD_some]
  case unlisted =>
    intro symbol
    constructor
    · intro hunknown entry hmem hbytes
      rw [h.search_eq_some_iff.mpr ⟨hmem, (Text.bytes_inj.mp hbytes).symm⟩] at hunknown
      exact hknown entry hmem hunknown
    · intro hnone
      cases hsearch : search (fun entry => Text.order entry.1.toList symbol.toList) table with
      | none => rfl
      | some entry =>
        obtain ⟨hmem, rfl⟩ := h.search_eq_some_iff.mp hsearch
        exact absurd rfl (hnone entry hmem)
  case scanned =>
    intro symbol
    simp only [h.search_eq_find? symbol, Text.bytes_inj]
  case distinct => exact h.nodup_bytes

theorem Func.exactLookup : ExactLookup table .unknown ofSymbol :=
  table_ascending.exactLookup (by simpa using ne_unknown_of_mem_table)

theorem Operator.exactLookup : ExactLookup table .unknown ofSymbol :=
  table_ascending.exactLookup (by simpa using ne_unknown_of_mem_table)

/-- The characters that are operators. -/
theorem Operator.ofChar_eq_unknown_iff (c : Char) :
    ofChar c = .unknown ↔ c ∉ ['*', '+', '-', '/', '^'] := by
  rw [ofChar, exactLookup.unlisted]
  simp [table, Text.bytes_inj, ← String.toList_inj]

/-- Whatever text is looked up as the name of a function or as an operator, the answer is what the
table says of the symbol with the same bytes, and `unknown` exactly where no symbol has them. -/
theorem symbol_lookup_exact :
    ExactLookup Func.table .unknown Func.ofSymbol ∧
      ExactLookup Operator.table .unknown Operator.ofSymbol ∧
      ∀ c, Operator.ofChar c = .unknown ↔ c ∉ ['*', '+', '-', '/', '^'] :=
  ⟨Func.exactLookup, Operator.exactLookup, Operator.ofChar_eq_unknown_iff⟩

/-- A name is found behind another that begins alike, and what both begin with is not. -/
theorem symbol_lookup_exact_arctg :
    ("arctg", Func.atan) ∈ Func.table ∧ Func.ofSymbol "arctg" = .atan ∧
      (∀ entry ∈ Func.table, Text.bytes "arct" ≠ Text.bytes entry.1) ∧
      Func.ofSymbol "arct" = .unknown := by
  have hlisted : ("arctg", Func.atan) ∈ Func.table := by simp [Func.table]
  have hunlisted : ∀ entry ∈ Func.table, Text.bytes "arct" ≠ Text.bytes entry.1 := by
    simp [Func.table, Text.bytes_inj]
  exact ⟨hlisted, symbol_lookup_exact.1.listed _ hlisted _ rfl, hunlisted,
    (symbol_lookup_exact.1.unlisted _).mpr hunlisted⟩

end FractalFormula
