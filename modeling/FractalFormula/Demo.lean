import FractalFormula.Decimal.Fixed
import FractalFormula.Formula
import FractalFormula.Orbit.Grid
import FractalFormula.Tree.Printer

/-!
# Demonstrations

Five small examples of what formulas can do, chosen by the first argument of the command
line; the second is the path of a configuration. They print lines, so they are functions
that yield lines.
-/

namespace FractalFormula.Demo

/-- What a run prints, and the status it ends with. -/
structure Output where
  stdout : List String
  stderr : List String
  status : UInt8

/-- The lines of a printed text. -/
def linesOf (text : String) : List String :=
  let lines := text.toList.splitOn '\n'
  (if lines.getLast? = some [] then lines.dropLast else lines).map String.ofList

/-! ### Parsing, printing, evaluating -/

/-- `text` with blanks in front of it up to a length of `width`. -/
def alignRight (width : Nat) (text : String) : String :=
  String.ofList (List.replicate (width - text.length) ' ') ++ text

/-- A complex number, by its parts. -/
def showComplex (z : ComplexFloat) : String :=
  "Complex \x7b re: " ++ String.ofList (Decimal.literal z.re) ++ ", im: " ++
    String.ofList (Decimal.literal z.im) ++ " \x7d"

/-- Why `text` is no formula. -/
def refusal (text : String) : List String :=
  match (Tree.parse text : Except Error (Tree ComplexFloat)) with
  | .ok _ => []
  | .error e =>
    [alignRight 8 text ++ " -> " ++ e.message ++ " (" ++ e.kind.notice ++ ")"]

/-- A formula with its value, and texts that are no formulas. -/
def evaluation : Except Error (List String) := do
  let source := "2^3^2 - sin(pi/2)*i"
  let t : Tree ComplexFloat ← Tree.parse source
  let z ← t.evaluate Bindings.constants
  return ["parsed expression " ++ t.text, source ++ " = Ok(" ++ showComplex z ++ ")"] ++
    ["foo(1)", "(1+2", "2 $ 3", "z +"].flatMap refusal

/-! ### Derivatives -/

/-- A derivative in several degrees of simplification. -/
def differentiation : Except Error (List String) := do
  let source := "sin(z)*z^3 + exp(c*z)"
  let t : Tree ComplexFloat ← Tree.parse source
  let d ← t.derivative "z"
  let f : Formula ComplexFloat ← Formula.ofText source .singleComplex
  let simple ← f.derivative "z"
  let newton ← f.newtonMap "z"
  return ["raw derivative: " ++ d.text, "after one pass: " ++ d.simplify.text,
    "simplified to fixpoint: " ++ simple.text, "newton map: " ++ newton.text]

/-! ### Shaders -/

/-- Shader expressions, a shader, and an edit that is refused. -/
def shading : Except Error (List String) := do
  let quadratic : Tree ComplexFloat ← Tree.parse "z^2+c"
  let plane : Tree ComplexFloat ← Tree.parse "x*x - y*y + cx"
  let quadraticText ← quadratic.lower .singleComplex
  let planeText ← plane.lower .twoReal
  let refused :=
    match plane.lower .singleComplex with
    | .ok text => text
    | .error e => "rejected: " ++ e.message
  let f : Formula ComplexFloat ← Formula.ofText "z^3+c" .singleComplex
  let shader ← f.shader
    (Template.preludeMarker ++ "\nvec2 step(vec2 z, vec2 c) \x7b return " ++
      Template.formulaMarker ++ "; \x7d\n")
  let kept :=
    match f.edit (.text "z^3+") with
    | (_, none) => []
    | (g, some e) => ["kept '" ++ g.source ++ "' after: " ++ e.message]
  return [quadraticText, planeText, refused] ++ linesOf (shader ++ "\n") ++ kept

/-! ### Images and orbits -/

/-- The characters of an image, from the fastest escape to the slowest. -/
def shades : List Char := " .:-=+*#%@".toList

/-- The character of a pixel. -/
def shade (maxIterations : Nat) (e : Escape ComplexFloat) : Char :=
  if e.escaped then shades.getD (e.iterations * (shades.length - 1) / maxIterations) '@' else '@'

/-- `xs` in rows of the given length. Every row uses up some of `xs`, so their number bounds the
number of rows. -/
def rows {β : Type} (length : Nat) : Nat → List β → List (List β)
  | 0, _ => []
  | turns + 1, xs =>
    if xs.isEmpty then [] else xs.take length :: rows length turns (xs.drop length)

/-- The image of the parameter plane. -/
def image (c : Config) : Except Error (List String) := do
  let t : Tree ComplexFloat ← Tree.parse "z^2+c"
  let v : Viewport := ⟨⟨-0.6, 0.0⟩, 3.2, 78, 32⟩
  let rule : EscapeRule ComplexFloat := { c.escapeRule with bailout := 2.0 }
  let grid ← t.escapeGrid Bindings.empty v rule .parameter
  return (rows v.width grid.length grid).map fun row =>
    String.ofList (row.map (shade rule.maxIterations.toNat))

/-- The first points of an orbit in words. -/
def showOrbit (points : List ComplexFloat) : List String :=
  (points.take 16).zipIdx.map fun (z, n) =>
    "z_" ++ Nat.repr n ++ " = " ++ String.ofList (Decimal.fixed 6 false z.re) ++ " " ++
      String.ofList (Decimal.fixed 6 true z.im) ++ "i"

/-- The start of an orbit. -/
def orbit (m : Machine) (c : Config) : Except Halt (Except Error (List String)) :=
  match (Tree.parse "z^2+c" : Except Error (Tree ComplexFloat)) with
  | .error e => .ok (.error e)
  | .ok t => do
    let points ← t.orbit m (Bindings.empty.bind "c" ⟨-0.12, 0.75⟩) c.escapeRule 0
    return points.map showOrbit

/-! ### Running -/

/-- The number written in `text`, with an optional plus sign, if it fits into 64 bits. -/
def number? (text : String) : Option Nat :=
  let ds :=
    match text.toList with
    | '+' :: ds => ds
    | ds => ds
  if ds.isEmpty || !ds.all Char.isDigit then none
  else
    let n := Decimal.ofDigits 0 ds
    if n < UInt64.size then some n else none

/-- The number of the example that the arguments ask for; the image unless they name one. -/
def example? (args : List String) : Nat := (args.head?.bind number?).getD 3

/-- The path of the configuration that the arguments name. -/
def configPath? (args : List String) : Option String := args[1]?

/-- The lines of an example. -/
def lines (m : Machine) (n : Nat) (c : Config) : Except Halt (Except Error (List String)) :=
  match n with
  | 0 => .ok evaluation
  | 1 => .ok differentiation
  | 2 => .ok shading
  | 3 => .ok (image c)
  | 4 => orbit m c
  | _ => .ok (.ok ["example must be 0..=4"])

/-- The status of a program that was aborted. -/
def aborted : UInt8 := 134

/-- A run under a configuration, or with the error in it; `logError` is what was wrong with the
log file. -/
def run (m : Machine) (args : List String) (config : Except Error Config)
    (logError : Option Error) : Output :=
  match config with
  | .error e => ⟨[], [e.message], 0⟩
  | .ok c =>
    let warnings := logError.toList.map Error.message
    match lines m (example? args) c with
    | .ok (.ok stdout) => ⟨stdout, warnings, 0⟩
    | .ok (.error e) => ⟨[], warnings ++ [e.message], 0⟩
    | .error halt => ⟨[], warnings ++ [halt.message], aborted⟩

end FractalFormula.Demo
