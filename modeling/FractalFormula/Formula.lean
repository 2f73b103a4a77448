import FractalFormula.Config.Basic
import FractalFormula.Derivative
import FractalFormula.Shader.Lowering
import FractalFormula.Shader.Template
import FractalFormula.Tree.Parser

/-!
# Formulas being edited

A formula keeps its text together with the tree and the shader expression made from it. An
edit, of the text or of the mode, takes effect only if the new text can be parsed and
lowered; otherwise the formula stays as it is and the error is handed back.
-/

namespace FractalFormula

/-- A valid formula. -/
structure Formula (α : Type _) where
  /-- The text as entered. -/
  source : String
  tree : Tree α
  /-- The shader expression of the tree in the mode. -/
  shaderText : String
  mode : Mode
  /-- The greatest number of passes that simplify a derivative. -/
  passes : Nat

namespace Formula

variable {α : Type _} [Numeral α]

/-- The tree and the shader expression of a text. -/
def compile (source : String) (mode : Mode) : Except Error (Tree α × String) := do
  let tree ← Tree.parse source
  let shaderText ← tree.lower mode
  return (tree, shaderText)

/-- The formula of a text. -/
def build (source : String) (mode : Mode) (passes : Nat) : Except Error (Formula α) := do
  let (tree, shaderText) ← compile source mode
  return ⟨source, tree, shaderText, mode, passes⟩

/-- The formula of a text in a mode, with the usual number of passes. -/
def ofText (source : String) (mode : Mode) : Except Error (Formula α) :=
  build source mode Config.default.passes

/-- The formula of a text under a configuration. -/
def ofConfig (source : String) (c : Config) : Except Error (Formula α) :=
  build source c.mode c.passes

/-- A change asked for. -/
inductive Edit where
  /-- Another text. -/
  | text (source : String)
  /-- Another mode. -/
  | mode (mode : Mode)
deriving DecidableEq, Repr

/-- The formula after an edit that can be made. -/
def edited (f : Formula α) : Edit → Except Error (Formula α)
  | .text source => build source f.mode f.passes
  | .mode mode => do
    let shaderText ← f.tree.lower mode
    return ⟨f.source, f.tree, shaderText, mode, f.passes⟩

/-- The formula after an edit, and the error if the edit was refused. -/
def edit (f : Formula α) (e : Edit) : Formula α × Option Error :=
  match f.edited e with
  | .ok g => (g, none)
  | .error error => (f, some error)

/-- A shader: the template with the formula and the prelude in it. -/
def shader (f : Formula α) (template : String) : Except Error String :=
  Template.splice template f.shaderText

/-- The simplified derivative. -/
def derivative (f : Formula α) (name : String) : Except Error (Tree α) := do
  let d ← f.tree.derivative name
  return (d.simplifyTimes f.passes).1

/-- The map of Newton's method. -/
def newtonMap (f : Formula α) (name : String) : Except Error (Tree α) := f.tree.newtonMap name

end Formula

end FractalFormula
