import FractalFormula.Decimal.Layout
import FractalFormula.Symbol.Func
import FractalFormula.Symbol.Operator

/-!
# Shader terms

The expressions that formulas become in a shader. Every value is a complex number, kept as
a vector of two floats, and every operator and function is the call of an intrinsic. A
real coordinate stands in a vector of its own.
-/

namespace FractalFormula

/-- A shader expression of vector type. -/
inductive ShaderTerm where
  /-- A constant vector. -/
  | constant (re im : Float)
  /-- A constant vector in words of the shader language that are always the same. -/
  | literal (words : String)
  /-- A variable that is a vector. -/
  | point (name : String)
  /-- A variable that is a float, as the real part of a vector. -/
  | coordinate (name : String)
  /-- The intrinsic of an operator. -/
  | operate (o : Operator) (left right : ShaderTerm)
  /-- The intrinsic of a function. -/
  | apply (f : Func) (argument : ShaderTerm)

namespace ShaderTerm

/-- The text of a float. It has a point or an exponent, as the shader language requires; what is
not a number is written as the division that yields it. -/
def writeFloat (x : Float) : List Char :=
  if x.isNaN then "(0.0/0.0)".toList
  else if x.isInf then (if 0.0 < x then "(1.0/0.0)" else "(-1.0/0.0)").toList
  else Decimal.literal x

/-- The text of a vector with the given parts. -/
def writeVector (re im : List Char) : List Char :=
  "vec2(".toList ++ (re ++ (", ".toList ++ (im ++ [')'])))

/-- The text of a term. -/
def write : ShaderTerm → List Char
  | constant re im => writeVector (writeFloat re) (writeFloat im)
  | literal words => words.toList
  | point name => name.toList
  | coordinate name => writeVector name.toList "0.0".toList
  | operate o left right =>
    o.intrinsic.toList ++ '(' :: (left.write ++ (", ".toList ++ (right.write ++ [')'])))
  | apply f argument => f.intrinsic.toList ++ '(' :: (argument.write ++ [')'])

/-- The text of a term. -/
def text (t : ShaderTerm) : String := String.ofList t.write

end ShaderTerm

end FractalFormula
