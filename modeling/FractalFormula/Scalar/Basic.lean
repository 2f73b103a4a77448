import FractalFormula.Symbol.Func
import FractalFormula.Symbol.Operator

/-!
# Scalars

The numbers a formula computes with. `Scalar` holds what evaluation and simplification need:
arithmetic, a comparison, powers and the catalogue of functions. No law is asked for, so
floating-point numbers are scalars as well as the elements of a field.

`Numeral` adds what reading and writing need: a scalar is written by its real and
imaginary parts. It also says how much memory a scalar takes.
-/

namespace FractalFormula

/-- Numbers that formulas can be evaluated in. -/
class Scalar (α : Type _) extends Zero α, One α, Add α, Sub α, Mul α, Div α, BEq α where
  /-- The power of a base to an exponent. -/
  pow : α → α → α
  /-- The value of a function of the catalogue. -/
  apply : Func → α → α
  /-- Whether the number is an ordinary one, neither infinite nor undefined. -/
  isFinite : α → Bool

namespace Scalar

variable {α : Type _} [Scalar α]

/-- The number two. -/
def two : α := 1 + 1

/-- Unary minus, taken as subtraction from zero. A negated real number so keeps a positive
zero as its imaginary part and stays on the principal branch of roots and logarithms. -/
def negated (x : α) : α := 0 - x

/-- Whether `x` equals zero. -/
def isZero (x : α) : Bool := x == 0

/-- Whether `x` equals one. -/
def isOne (x : α) : Bool := x == 1

/-- Whether `x` equals minus one. -/
def isMinusOne (x : α) : Bool := x == 0 - 1

/-- The value of an operator; the unknown one has none. -/
def operate? : Operator → α → α → Option α
  | .add, x, y => some (x + y)
  | .sub, x, y => some (x - y)
  | .mul, x, y => some (x * y)
  | .div, x, y => some (x / y)
  | .pow, x, y => some (pow x y)
  | .unknown, _, _ => none

end Scalar

/-- Scalars that are read and written as a pair of a real and an imaginary part. -/
class Numeral (α : Type _) extends Scalar α where
  /-- The scalar of a real number. -/
  ofReal : Float → α
  /-- The value of a literal, which is imaginary if it ends in `i`; nothing when the scalars
  have no imaginary numbers. -/
  ofLiteral? : Float → Bool → Option α
  /-- The real and the imaginary part. -/
  parts : α → Float × Float
  /-- The value of a predeclared name. -/
  constant? : String → Option α
  /-- The bytes that a scalar takes in memory. -/
  bytes : Nat

/-- The square of the absolute value. -/
def Numeral.normSq {α : Type _} [Numeral α] (x : α) : Float :=
  let (re, im) := parts x
  re * re + im * im

end FractalFormula
