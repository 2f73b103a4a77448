/-!
# TOML values

What a TOML document holds: a table of values by key, in the order in which the keys are
first mentioned.
-/

namespace FractalFormula.Toml

/-- A TOML value. -/
inductive Value where
  | string (s : String)
  | integer (n : Int)
  | float (x : Float)
  | boolean (b : Bool)
  /-- A date, a time, or both, as written. -/
  | moment (text : String)
  | array (items : List Value)
  | table (entries : List (String × Value))

/-- A table: values by key. -/
abbrev Table := List (String × Value)

/-- The value of a key. -/
def Table.get? (t : Table) (key : String) : Option Value :=
  (t.find? fun entry => entry.1 = key).map (·.2)

namespace Value

/-- The text of a string. -/
def string? : Value → Option String
  | .string s => some s
  | _ => none

/-- The number of an integer. -/
def integer? : Value → Option Int
  | .integer n => some n
  | _ => none

/-- The number of a float or an integer. -/
def number? : Value → Option Float
  | .float x => some x
  | .integer n => some (Float.ofInt n)
  | _ => none

/-- The entries of a table. -/
def table? : Value → Option Table
  | .table entries => some entries
  | _ => none

end Value

end FractalFormula.Toml
