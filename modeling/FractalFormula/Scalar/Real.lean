import FractalFormula.Scalar.Basic
import FractalFormula.Scalar.Elementary

/-!
# Real scalars

Binary64 numbers as scalars. They have no imaginary literals, and the predeclared name `i`
has no value in them.
-/

namespace FractalFormula

open Elementary in
/-- The functions of the catalogue on real numbers. -/
def Func.onReal (f : Func) (x : Float) : Float :=
  match f with
  | .sin => x.sin
  | .cos => x.cos
  | .tan => x.tan
  | .cot => 1.0 / x.tan
  | .asin => x.asin
  | .acos => x.acos
  | .atan => x.atan
  | .acot => (1.0 / x).atan
  | .sinh => x.sinh
  | .cosh => x.cosh
  | .tanh => x.tanh
  | .coth => 1.0 / x.tanh
  | .asinh => Elementary.asinh x
  | .acosh => Elementary.acosh x
  | .atanh => Elementary.atanh x
  | .exp => x.exp
  | .log => x.log
  | .sqrt => x.sqrt
  | .abs => x.abs
  | .arg => if x.isNaN then nan else if x < 0.0 then pi else 0.0
  | .re => x
  | .conj => x
  | .im => 0.0
  | .unknown => nan

instance : Numeral Float where
  zero := 0.0
  one := 1.0
  add := (· + ·)
  sub := (· - ·)
  mul := (· * ·)
  div := (· / ·)
  beq := (· == ·)
  pow := Float.pow
  apply := Func.onReal
  isFinite := Float.isFinite
  ofReal x := x
  ofLiteral? x imaginary := if imaginary then none else some x
  parts x := (x, 0.0)
  constant? name :=
    if name = "pi" then some Elementary.pi
    else if name = "e" then some Elementary.e
    else none
  bytes := 8

end FractalFormula
