/-!
# Input modes

A mode says which variables a formula for the shader may use: one complex iterate and its
parameter, or two real coordinates and their parameters. The constants belong to both.
-/

namespace FractalFormula

/-- Which names a formula may use. -/
inductive Mode where
  /-- The complex iterate `z` and the complex parameter `c`. -/
  | singleComplex
  /-- The real coordinates `x` and `y` and the real parameters `cx` and `cy`. -/
  | twoReal
deriving DecidableEq, Repr, Inhabited

namespace Mode

/-- All modes, the default first. -/
def all : List Mode := [.singleComplex, .twoReal]

/-- The name of the mode in configurations and messages. -/
def name : Mode → String
  | singleComplex => "single_complex"
  | twoReal => "two_real"

/-- The mode with exactly this name. -/
def ofName? (name : String) : Option Mode := all.find? fun m => m.name = name

/-- The names of the predeclared constants. -/
def constants : List String := ["pi", "e", "i"]

/-- The names that are not constants. -/
def coordinates : Mode → List String
  | singleComplex => ["z", "c"]
  | twoReal => ["x", "y", "cx", "cy"]

/-- The names a formula may use. -/
def names (m : Mode) : List String := m.coordinates ++ constants

/-- Whether a formula may use `name`. -/
def allows (m : Mode) (name : String) : Bool := m.names.contains name

end Mode

end FractalFormula
