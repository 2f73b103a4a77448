import FractalFormula.Error
import FractalFormula.Shader.Prelude
import FractalFormula.Text.Replace

/-!
# Shader templates

A template is shader source with a marker where the formula goes, and possibly one where
the prelude goes. The prelude is put in first: it holds no marker, while a formula's text
might.
-/

namespace FractalFormula.Template

/-- The marker that the formula replaces. -/
def formulaMarker : String := "\x7b\x7bFORMULA\x7d\x7d"

/-- The marker that the prelude replaces. -/
def preludeMarker : String := "\x7b\x7bPRELUDE\x7d\x7d"

/-- The template with `fragment` in place of the formula. -/
def splice (template fragment : String) : Except Error String :=
  if Text.occurs formulaMarker.toList template.toList then
    .ok <| String.ofList <|
      Text.replace formulaMarker.toList fragment.toList <|
        Text.replace preludeMarker.toList Prelude.text.toList template.toList
  else .error (.config (.noMarker formulaMarker))

end FractalFormula.Template
