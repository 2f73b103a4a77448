import FractalFormula.Scalar.Basic
import FractalFormula.Scalar.Elementary

/-!
# Complex scalars

Points of the complex plane with binary64 parts. Arithmetic follows the textbook formulas
part by part, without scaling and without fusing, so a division by zero gives undefined
parts. Integral powers of small exponents are repeated products and hence exact where the
products are; other powers go through the logarithm.
-/

namespace FractalFormula

/-- The complex number `re + im i`. -/
structure ComplexFloat where
  re : Float
  im : Float
deriving DecidableEq, Inhabited

namespace ComplexFloat

open Elementary

instance : Zero ComplexFloat := ⟨⟨0.0, 0.0⟩⟩
instance : One ComplexFloat := ⟨⟨1.0, 0.0⟩⟩

/-- The imaginary unit. -/
def i : ComplexFloat := ⟨0.0, 1.0⟩

instance : Add ComplexFloat := ⟨fun z w => ⟨z.re + w.re, z.im + w.im⟩⟩
instance : Sub ComplexFloat := ⟨fun z w => ⟨z.re - w.re, z.im - w.im⟩⟩
instance : Mul ComplexFloat :=
  ⟨fun z w => ⟨z.re * w.re - z.im * w.im, z.re * w.im + z.im * w.re⟩⟩
instance : Div ComplexFloat :=
  ⟨fun z w =>
    let n := w.re * w.re + w.im * w.im
    ⟨(z.re * w.re + z.im * w.im) / n, (z.im * w.re - z.re * w.im) / n⟩⟩
instance : Neg ComplexFloat := ⟨fun z => ⟨-z.re, -z.im⟩⟩
instance : BEq ComplexFloat := ⟨fun z w => z.re == w.re && z.im == w.im⟩

/-- Whether both parts are finite. -/
def isFinite (z : ComplexFloat) : Bool := z.re.isFinite && z.im.isFinite

/-- The reciprocal. -/
def inv (z : ComplexFloat) : ComplexFloat :=
  let n := z.re * z.re + z.im * z.im
  ⟨z.re / n, -z.im / n⟩

/-- The conjugate. -/
def conj (z : ComplexFloat) : ComplexFloat := ⟨z.re, -z.im⟩

/-- The absolute value. -/
def abs (z : ComplexFloat) : Float := hypot z.re z.im

/-- The argument, from `-π` to `π`. -/
def arg (z : ComplexFloat) : Float := Float.atan2 z.im z.re

/-- The number with absolute value `r` and argument `theta`. -/
def ofPolar (r theta : Float) : ComplexFloat := ⟨r * theta.cos, r * theta.sin⟩

/-- Both parts divided by a real number. -/
def unscale (z : ComplexFloat) (x : Float) : ComplexFloat := ⟨z.re / x, z.im / x⟩

/-- The product of `acc` with what `n` still asks for of the powers of `base`: a square for
every binary digit, and a factor for those that are one. The count of turns is at least the
number of digits. -/
def powerOnto : Nat → ComplexFloat → ComplexFloat → Nat → ComplexFloat
  | 0, acc, _, _ => acc
  | turns + 1, acc, base, n =>
    if n ≤ 1 then acc
    else
      let square := base * base
      powerOnto turns (if n / 2 % 2 = 1 then acc * square else acc) square (n / 2)

/-- The `n`-th power of `base`, for `n` not zero: the zeros at the end of `n` in binary are
squared out first. -/
def oddPower : Nat → ComplexFloat → Nat → ComplexFloat
  | 0, base, _ => base
  | turns + 1, base, n =>
    if n % 2 = 0 then oddPower turns (base * base) (n / 2) else powerOnto n base base n

/-- The power of `z` to an integer; a negative one is taken of the reciprocal. -/
def powInt (z : ComplexFloat) (n : Int) : ComplexFloat :=
  if n = 0 then 1
  else if n < 0 then oddPower n.natAbs z.inv n.natAbs
  else oddPower n.natAbs z n.natAbs

/-- The principal logarithm. -/
def log (z : ComplexFloat) : ComplexFloat := ⟨z.abs.log, z.arg⟩

/-- The exponential. Where the real part is infinite or undefined, the result is settled
without the direction whenever that is possible. -/
def exp (z : ComplexFloat) : ComplexFloat :=
  let polar := ofPolar z.re.exp z.im
  if z.re.isInf then
    if z.re < 0.0 then
      if z.im.isFinite then polar else 0
    else if z.im == 0.0 || !z.im.isFinite then
      ⟨z.re, if z.im.isInf then nan else z.im⟩
    else polar
  else if z.re.isNaN && z.im == 0.0 then z
  else polar

/-- The principal square root. Real and purely imaginary numbers have theirs without
trigonometry. -/
def sqrt (z : ComplexFloat) : ComplexFloat :=
  if z.im == 0.0 then
    if isNegative z.re then
      let root := (-z.re).sqrt
      ⟨0.0, if isNegative z.im then -root else root⟩
    else ⟨z.re.sqrt, z.im⟩
  else if z.re == 0.0 then
    let x := (z.im.abs / 2.0).sqrt
    ⟨x, if isNegative z.im then -x else x⟩
  else ofPolar z.abs.sqrt (z.arg / 2.0)

/-- The sine. -/
def sin (z : ComplexFloat) : ComplexFloat :=
  ⟨z.re.sin * z.im.cosh, z.re.cos * z.im.sinh⟩

/-- The cosine. -/
def cos (z : ComplexFloat) : ComplexFloat :=
  ⟨z.re.cos * z.im.cosh, -z.re.sin * z.im.sinh⟩

/-- The tangent, by the double angle. -/
def tan (z : ComplexFloat) : ComplexFloat :=
  let a := z.re + z.re
  let b := z.im + z.im
  unscale ⟨a.sin, b.sinh⟩ (a.cos + b.cosh)

/-- The hyperbolic sine. -/
def sinh (z : ComplexFloat) : ComplexFloat :=
  ⟨z.re.sinh * z.im.cos, z.re.cosh * z.im.sin⟩

/-- The hyperbolic cosine. -/
def cosh (z : ComplexFloat) : ComplexFloat :=
  ⟨z.re.cosh * z.im.cos, z.re.sinh * z.im.sin⟩

/-- The hyperbolic tangent, by the double argument. -/
def tanh (z : ComplexFloat) : ComplexFloat :=
  let a := z.re + z.re
  let b := z.im + z.im
  unscale ⟨a.sinh, b.sin⟩ (a.cosh + b.cos)

/-- The inverse sine. -/
def asin (z : ComplexFloat) : ComplexFloat := -i * log (sqrt (1 - z * z) + i * z)

/-- The inverse cosine. -/
def acos (z : ComplexFloat) : ComplexFloat := -i * log (i * sqrt (1 - z * z) + z)

/-- The inverse tangent, infinite at `i` and `-i`. -/
def atan (z : ComplexFloat) : ComplexFloat :=
  if z == i then ⟨0.0, infinity⟩
  else if z == -i then ⟨0.0, -infinity⟩
  else (log (1 + i * z) - log (1 - i * z)) / ((1 + 1) * i)

/-- The inverse hyperbolic sine. -/
def asinh (z : ComplexFloat) : ComplexFloat := log (z + sqrt (1 + z * z))

/-- The inverse hyperbolic cosine. -/
def acosh (z : ComplexFloat) : ComplexFloat :=
  (1 + 1) * log (sqrt ((z + 1) / (1 + 1)) + sqrt ((z - 1) / (1 + 1)))

/-- The inverse hyperbolic tangent, infinite at `1` and `-1`. -/
def atanh (z : ComplexFloat) : ComplexFloat :=
  if z == 1 then ⟨infinity, 0.0⟩
  else if z == -1 then ⟨-infinity, 0.0⟩
  else (log (1 + z) - log (1 - z)) / (1 + 1)

/-- The power of `z` to `w`. A real integer of at most 64 in magnitude is multiplied out.
Otherwise a zero base gives zero if the exponent's real part is positive and is undefined if
not, and all else goes through the logarithm. -/
def pow (z w : ComplexFloat) : ComplexFloat :=
  match if w.im == 0.0 then smallInteger? w.re else none with
  | some n => powInt z n
  | none =>
    if z == 0 then (if 0.0 < w.re then 0 else ⟨nan, nan⟩)
    else exp (w * log z)

/-- The functions of the catalogue on complex numbers. -/
def apply (f : Func) (z : ComplexFloat) : ComplexFloat :=
  match f with
  | .sin => sin z
  | .cos => cos z
  | .tan => tan z
  | .cot => 1 / tan z
  | .asin => asin z
  | .acos => acos z
  | .atan => atan z
  | .acot => atan (1 / z)
  | .sinh => sinh z
  | .cosh => cosh z
  | .tanh => tanh z
  | .coth => 1 / tanh z
  | .asinh => asinh z
  | .acosh => acosh z
  | .atanh => atanh z
  | .exp => exp z
  | .log => log z
  | .sqrt => sqrt z
  | .abs => ⟨abs z, 0.0⟩
  | .arg => ⟨arg z, 0.0⟩
  | .re => ⟨z.re, 0.0⟩
  | .im => ⟨z.im, 0.0⟩
  | .conj => conj z
  | .unknown => ⟨nan, nan⟩

instance : Numeral ComplexFloat where
  pow := pow
  apply := apply
  isFinite := isFinite
  ofReal x := ⟨x, 0.0⟩
  ofLiteral? x imaginary := some (if imaginary then ⟨0.0, x⟩ else ⟨x, 0.0⟩)
  parts z := (z.re, z.im)
  constant? name :=
    if name = "pi" then some ⟨Elementary.pi, 0.0⟩
    else if name = "e" then some ⟨Elementary.e, 0.0⟩
    else if name = "i" then some i
    else none
  bytes := 16

end ComplexFloat

end FractalFormula
