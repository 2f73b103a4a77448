import FractalFormula.Error
import FractalFormula.Shader.Term
import FractalFormula.Tree.Basic

/-!
# Lowering to the shader

A tree becomes a shader term if every variable in it is allowed by the mode and every node
has children that fit it. The first obstacle in reading order is the error, and then there
is no term at all. The children of a number or a variable are not looked at.
-/

namespace FractalFormula

/-- The term of a variable that the mode allows. The predeclared constants have words of their own,
which do not refer to the values that evaluation gives them. -/
def Mode.variableTerm (m : Mode) (name : String) : ShaderTerm :=
  if name = "pi" then .literal "vec2(3.141592653589793, 0.0)"
  else if name = "e" then .literal "vec2(2.718281828459045, 0.0)"
  else if name = "i" then .literal "vec2(0.0, 1.0)"
  else
    match m with
    | .singleComplex => .point name
    | .twoReal => .coordinate name

namespace Tree

variable {α : Type _} [Numeral α]

/-- The shader term of a tree. A negation is a subtraction from zero. -/
def toShader (m : Mode) : Tree α → Except Error ShaderTerm
  | .node (.num x) _ => .ok (.constant (Numeral.parts x).1 (Numeral.parts x).2)
  | .node (.var name) _ =>
    if m.allows name then .ok (m.variableTerm name) else .error (.forbiddenVariable name m)
  | .node (.operator _) [operand] => do
    let a ← toShader m operand
    return .operate .sub (.literal "vec2(0.0, 0.0)") a
  | .node (.operator .unknown) [_, _] => .error (.malformedNode 2)
  | .node (.operator o) [left, right] => do
    let a ← toShader m left
    let b ← toShader m right
    return .operate o a b
  | .node (.operator _) cs => .error (.malformedNode cs.length)
  | .node (.func .unknown) [_] => .error (.unknownFunction Func.unknown.token)
  | .node (.func f) [argument] => do
    let a ← toShader m argument
    return .apply f a
  | .node (.func _) cs => .error (.malformedNode cs.length)

/-- The shader expression of a tree. -/
def lower (m : Mode) (t : Tree α) : Except Error String := (t.toShader m).map ShaderTerm.text

end Tree

end FractalFormula
