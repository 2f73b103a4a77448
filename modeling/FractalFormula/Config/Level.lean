import FractalFormula.Error
import FractalFormula.Text.Blank
import FractalFormula.Text.Lowercase

/-!
# Log levels

How much is logged. Names of levels are read without regard to case and to blanks around
them.
-/

namespace FractalFormula

/-- How much is logged. -/
inductive Level where
  | off
  | error
  | warn
  | info
  | debug
  | trace
deriving DecidableEq, Repr

namespace Level

/-- The name of a level in answers and records. -/
def name : Level → String
  | off => "OFF"
  | error => "ERROR"
  | warn => "WARN"
  | info => "INFO"
  | debug => "DEBUG"
  | trace => "TRACE"

/-- The names of levels in configurations. -/
def table : List (String × Level) :=
  [("off", .off), ("none", .off), ("error", .error), ("warn", .warn), ("info", .info),
    ("debug", .debug), ("trace", .trace)]

/-- The name of a level in the form in which the table has it. -/
def normalize (name : String) : String :=
  String.ofList (Text.toLowercase (Text.trim name.toList))

/-- The level with a name. -/
def parse (name : String) : Except Error Level :=
  match table.find? fun entry => entry.1 = normalize name with
  | some entry => .ok entry.2
  | none => .error (.config (.unknownLevel (normalize name)))

end Level

end FractalFormula
