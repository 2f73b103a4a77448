import FractalFormula.Orbit.Basic
import FractalFormula.Scalar.ComplexFloat

/-!
# Escape-time grids

A window of pixels onto the complex plane, and the iteration at every pixel. A pixel is
either the parameter of its iteration or its starting point.
-/

namespace FractalFormula

/-- A window of pixels onto the plane. -/
structure Viewport where
  center : ComplexFloat
  /-- How much of the real axis the width covers. -/
  span : Float
  width : Nat
  height : Nat

/-- The point at the middle of a pixel; rows count downwards. -/
def Viewport.point (v : Viewport) (column row : Nat) : ComplexFloat :=
  let step := v.span / Float.ofNat v.width
  ⟨v.center.re + (Float.ofNat column + 0.5 - Float.ofNat v.width / 2.0) * step,
    v.center.im - (Float.ofNat row + 0.5 - Float.ofNat v.height / 2.0) * step⟩

/-- What a pixel is to its iteration. -/
inductive PlaneRole where
  /-- The parameter; all iterations start at the seed. -/
  | parameter
  /-- The starting point; the parameter comes from the bindings. -/
  | dynamic
deriving DecidableEq, Repr

/-- The role in words. -/
def PlaneRole.name : PlaneRole → String
  | parameter => "Parameter"
  | dynamic => "Dynamic"

namespace Tree

/-- The iteration at a point of the plane. -/
def escapeAt (t : Tree ComplexFloat) (b : Bindings ComplexFloat)
    (rule : EscapeRule ComplexFloat) (role : PlaneRole) (point : ComplexFloat) :
    Except Error (Escape ComplexFloat) :=
  match role with
  | .parameter => t.escapeIn b (State.empty.set parameterName point) rule rule.seed
  | .dynamic => t.escape b rule point

/-- The iterations at all pixels, row by row. -/
def escapeGrid (t : Tree ComplexFloat) (b : Bindings ComplexFloat) (v : Viewport)
    (rule : EscapeRule ComplexFloat) (role : PlaneRole) :
    Except Error (List (Escape ComplexFloat)) :=
  (List.range (v.width * v.height)).mapM fun i =>
    t.escapeAt b rule role (v.point (i % v.width) (i / v.width))

end Tree

end FractalFormula
