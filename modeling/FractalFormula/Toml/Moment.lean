import FractalFormula.Text.Order
import FractalFormula.Toml.Scalar

/-!
# Moments written as tables

A date or a time may also be written as a table that has its text, as a string, under the key
`momentKey`. That key counts only where it is the first of the table's keys in the order of
texts; then nothing else in the table counts, and a text that is no date or time is an
error. A document is a table in any case, so only the values in it are looked at.
-/

namespace FractalFormula.Toml

/-- The key under which a table holds the text of a moment. -/
def momentKey : String := "$__toml_private_datetime"

/-- The value under `momentKey`, where that is the first key of a table. -/
def momentEntry? (t : Table) : Option Value :=
  if t.any fun entry => Text.order entry.1.toList momentKey.toList = .lt then none
  else t.get? momentKey

/-- The moment whose text a value is. -/
def Value.toMoment? : Value → Option Value
  | .string s => if isMoment s.toList then some (.moment s) else none
  | _ => none

mutual

/-- A value with its moments found. -/
def Value.withMoments? : Value → Option Value
  | .array items => (itemsWithMoments? items).map .array
  | .table entries =>
    match momentEntry? entries with
    | some v => v.toMoment?
    | none => (entriesWithMoments? entries).map .table
  | v => some v

/-- The items of an array with their moments found. -/
def itemsWithMoments? : List Value → Option (List Value)
  | [] => some []
  | v :: vs => do
    let v ← v.withMoments?
    let vs ← itemsWithMoments? vs
    return v :: vs

/-- The entries of a table with their moments found. -/
def entriesWithMoments? : List (String × Value) → Option (List (String × Value))
  | [] => some []
  | (key, v) :: entries => do
    let v ← v.withMoments?
    let entries ← entriesWithMoments? entries
    return (key, v) :: entries

end

end FractalFormula.Toml
