/-!
# Elementary functions of binary64 numbers

The functions that core does not offer, each by formulas that are accurate over the whole
range: the length of a vector, the logarithm near one, and the inverse hyperbolic
functions. None overflows unless its value does.
-/

namespace FractalFormula.Elementary

/-- The ratio of a circle's circumference to its diameter. -/
def pi : Float := Float.ofBits 0x400921fb54442d18

/-- The base of the natural logarithm. -/
def e : Float := Float.ofBits 0x4005bf0a8b145769

/-- Positive infinity. -/
def infinity : Float := Float.ofBits 0x7ff0000000000000

/-- The undefined number. -/
def nan : Float := Float.ofBits 0x7ff8000000000000

/-- Whether the sign of `x` is minus; a negative zero counts, the undefined number does not. -/
def isNegative (x : Float) : Bool := 0x8000000000000000 ≤ x.toBits

/-- The magnitude of `x` with the sign of `y`. -/
def copySign (x y : Float) : Float := if isNegative y then -x.abs else x.abs

/-- The length of the vector `(x, y)` for `x ≥ y ≥ 0` whose squares neither overflow nor
underflow. One correction step removes most of the rounding error of the square root. -/
def lengthOfScaled (x y : Float) : Float :=
  let h := Float.sqrt (x * x + y * y)
  if h ≤ 2.0 * y then
    let delta := h - y
    let t₁ := x * (2.0 * delta - x)
    let t₂ := (delta - 2.0 * (x - y)) * delta
    h - (t₁ + t₂) / (2.0 * h)
  else
    let delta := h - x
    let t₁ := 2.0 * delta * (x - 2.0 * y)
    let t₂ := (4.0 * delta - y) * y + delta * delta
    h - (t₁ + t₂) / (2.0 * h)

/-- `2 ^ -600`, by which vectors too long or too short for their squares are scaled. -/
def scaleDown : Float := Float.ofBits 0x1a70000000000000

/-- `2 ^ -54`: a component smaller than this part of the other only rounds it. -/
def negligible : Float := Float.ofBits 0x3c90000000000000

/-- The length of the vector `(x, y)`. It is infinite when a component is, even beside an
undefined one. -/
def hypot (x y : Float) : Float :=
  if !x.isFinite || !y.isFinite then
    if x.isInf || y.isInf then infinity else x + y
  else
    let a := x.abs
    let b := y.abs
    let long := if a < b then b else a
    let short := if a < b then a else b
    if Float.ofBits 0x5fe0000000000000 < long then
      if short ≤ long * negligible then long + short
      else lengthOfScaled (long * scaleDown) (short * scaleDown) / scaleDown
    else if short < Float.ofBits 0x2340000000000000 then
      if short / negligible ≤ long then long + short
      else lengthOfScaled (long / scaleDown) (short / scaleDown) * scaleDown
    else if short ≤ long * negligible then long + short
    else lengthOfScaled long short

/-- The logarithm of `1 + x`. What rounding `1 + x` to `u` loses, which is `x - (u - 1)`, enters
by the slope of the logarithm at `u`. -/
def logOnePlus (x : Float) : Float :=
  let u := 1.0 + x
  if u == 1.0 then x
  else if u == 0.0 || u == infinity then Float.log u
  else Float.log u + (x - (u - 1.0)) / u

/-- The logarithm of two. -/
def logTwo : Float := Float.ofBits 0x3fe62e42fefa39ef

/-- `2 ^ 28`: for `x` beyond it, the square root of `x ^ 2 + 1` or `x ^ 2 - 1` is `x` in all
digits of a binary64 number. -/
def rootAbsorbsOne : Float := 268435456.0

/-- The logarithm of `2 * x`, for which `2 * x` itself need not be finite. -/
def logDouble (x : Float) : Float := Float.log x + logTwo

/-- The inverse hyperbolic sine, the logarithm of `x + sqrt (x ^ 2 + 1)` for a positive `x`. The
function is odd. -/
def asinh (x : Float) : Float :=
  let a := x.abs
  if rootAbsorbsOne < a then copySign (logDouble a) x
  else
    let inverse := 1.0 / a
    copySign (logOnePlus (a + a / (hypot 1.0 inverse + inverse))) x

/-- The inverse hyperbolic cosine, the logarithm of `x + sqrt (x ^ 2 - 1)`. The argument of that
logarithm is taken less one, which keeps the digits that `x` has beyond one. -/
def acosh (x : Float) : Float :=
  if x < 1.0 then nan
  else if rootAbsorbsOne < x then logDouble x
  else
    let t := x - 1.0
    logOnePlus (t + Float.sqrt t * Float.sqrt (x + 1.0))

/-- The inverse hyperbolic tangent. -/
def atanh (x : Float) : Float := 0.5 * logOnePlus ((2.0 * x) / (1.0 - x))

/-- The bits of `3 * 2 ^ 51`. Between `2 ^ 52` and `2 ^ 53` neighbours are one apart, so adding this
number to a small one rounds it to an integer, by which the bits then differ from these. -/
def integerBits : UInt64 := 0x4338000000000000

/-- The integer `x` is equal to, if there is one of at most 64 in magnitude. -/
def smallInteger? (x : Float) : Option Int :=
  let shifted := x + Float.ofBits integerBits
  if x.abs ≤ 64.0 && shifted - Float.ofBits integerBits == x then
    some (shifted.toBits.toNat - integerBits.toNat)
  else none

end FractalFormula.Elementary
