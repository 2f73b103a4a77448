import FractalFormula.Formula
import FractalFormula.Orbit.Grid

/-!
# What is logged

The records that operations leave in the log. Whatever an operation computes, its records
follow from its arguments, so they are functions of their own.
-/

namespace FractalFormula.Journal

/-- A line of the log. -/
structure Record where
  level : Level
  text : String
deriving DecidableEq, Repr

/-- Parsing shows the text without its blanks. -/
def parsing (source : String) : List Record :=
  [⟨.debug, "parsing '" ++ String.ofList (Parser.inked source.toList) ++ "'"⟩]

variable {α : Type _} [Numeral α]

/-- Lowering shows the length of the result in bytes, or the variable that was refused. -/
def lowering (t : Tree α) (mode : Mode) : List Record :=
  match t.lower mode with
  | .ok text =>
    [⟨.debug, "lowered formula to " ++ Nat.repr text.utf8ByteSize ++ " bytes of GLSL in " ++
      mode.name ++ " mode"⟩]
  | .error (.forbiddenVariable name mode) =>
    [⟨.warn, "variable '" ++ name ++ "' is not allowed in " ++ mode.name ++ " mode"⟩]
  | .error _ => []

/-- Making a formula parses it and, if that succeeds, lowers it. -/
def building (α : Type _) [Numeral α] (source : String) (mode : Mode) : List Record :=
  parsing source ++
    match (Tree.parse source : Except Error (Tree α)) with
    | .ok t => lowering t mode
    | .error _ => []

/-- An edit shows what it did and why it was refused, if it was. -/
def editing (f : Formula α) : Formula.Edit → List Record
  | .text source =>
    building α source f.mode ++
      match f.edited (.text source) with
      | .ok _ => []
      | .error e =>
        [⟨.warn, "keeping formula '" ++ f.source ++ "', rejected '" ++ source ++ "': " ++
          e.message⟩]
  | .mode mode =>
    lowering f.tree mode ++
      match f.edited (.mode mode) with
      | .ok _ => []
      | .error e =>
        [⟨.warn, "keeping " ++ f.mode.name ++ " mode for '" ++ f.source ++ "': " ++ e.message⟩]

/-- A grid shows its size. -/
def grid (v : Viewport) (rule : EscapeRule ComplexFloat) (role : PlaneRole) : List Record :=
  [⟨.info, "escape-time grid " ++ Nat.repr v.width ++ "x" ++ Nat.repr v.height ++ " (" ++
    role.name ++ " plane, " ++ Nat.repr rule.maxIterations.toNat ++ " iterations max)"⟩]

end FractalFormula.Journal
