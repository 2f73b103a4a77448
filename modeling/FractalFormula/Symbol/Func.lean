import FractalFormula.Search
import FractalFormula.Text.Order

/-!
# Functions

The catalogue of functions of formulas. Every function has one canonical token, which
printing and the shader use; formulas may also call some of them by another usual name,
such as `ln` or `arctg`. A name outside the table stands for `unknown`.
-/

namespace FractalFormula

/-- A function of the catalogue. -/
inductive Func where
  | sin
  | cos
  | tan
  | cot
  | asin
  | acos
  | atan
  | acot
  | sinh
  | cosh
  | tanh
  | coth
  | asinh
  | acosh
  | atanh
  | exp
  | log
  | sqrt
  | abs
  | arg
  | re
  | im
  | conj
  | unknown
deriving DecidableEq, Repr

namespace Func

/-- All functions, the unknown one last. -/
def all : List Func :=
  [.sin, .cos, .tan, .cot, .asin, .acos, .atan, .acot, .sinh, .cosh, .tanh, .coth, .asinh,
    .acosh, .atanh, .exp, .log, .sqrt, .abs, .arg, .re, .im, .conj, .unknown]

/-- The canonical name. -/
def token : Func → String
  | sin => "sin"
  | cos => "cos"
  | tan => "tan"
  | cot => "cot"
  | asin => "asin"
  | acos => "acos"
  | atan => "atan"
  | acot => "acot"
  | sinh => "sinh"
  | cosh => "cosh"
  | tanh => "tanh"
  | coth => "coth"
  | asinh => "asinh"
  | acosh => "acosh"
  | atanh => "atanh"
  | exp => "exp"
  | log => "log"
  | sqrt => "sqrt"
  | abs => "abs"
  | arg => "arg"
  | re => "re"
  | im => "im"
  | conj => "conj"
  | unknown => "ERROR"

/-- The function in words: its token with a capital. -/
def name : Func → String
  | unknown => "ERROR"
  | f => f.token.capitalize

/-- The shader function that computes it on complex numbers. -/
def intrinsic (f : Func) : String := "c" ++ f.token

/-- The names a formula may call a function by, in ascending order. -/
def table : Array (String × Func) := #[
  ("abs", .abs),
  ("acos", .acos),
  ("acosh", .acosh),
  ("acot", .acot),
  ("arccos", .acos),
  ("arccot", .acot),
  ("arcctg", .acot),
  ("arcosh", .acosh),
  ("arcsin", .asin),
  ("arctan", .atan),
  ("arctg", .atan),
  ("arg", .arg),
  ("arsinh", .asinh),
  ("artanh", .atanh),
  ("asin", .asin),
  ("asinh", .asinh),
  ("atan", .atan),
  ("atanh", .atanh),
  ("conj", .conj),
  ("cos", .cos),
  ("cosh", .cosh),
  ("cot", .cot),
  ("coth", .coth),
  ("ctg", .cot),
  ("exp", .exp),
  ("im", .im),
  ("ln", .log),
  ("log", .log),
  ("re", .re),
  ("sin", .sin),
  ("sinh", .sinh),
  ("sqrt", .sqrt),
  ("tan", .tan),
  ("tanh", .tanh),
  ("tg", .tan)]

/-- The function called by `symbol`. -/
def ofSymbol (symbol : String) : Func :=
  ((search (fun entry => Text.order entry.1.toList symbol.toList) table).map (·.2)).getD .unknown

end Func

end FractalFormula
