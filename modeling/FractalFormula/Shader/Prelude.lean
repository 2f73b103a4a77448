/-!
# Shader prelude

The definitions of the intrinsics in the shader language. Each calls only functions defined
above it and functions of the shader language itself.
-/

namespace FractalFormula.Prelude

/-- A function from vectors to vectors in the shader language. -/
structure Definition where
  name : String
  parameters : String
  /-- What stands between the braces. -/
  body : String

/-- The text of a definition. -/
def Definition.text (d : Definition) : String :=
  "vec2 " ++ d.name ++ "(" ++ d.parameters ++ ") \x7b" ++ d.body ++ "\x7d\n"

/-- The intrinsics. -/
def definitions : List Definition := [
  ⟨"cadd", "vec2 a, vec2 b",
    " return a + b; "⟩,
  ⟨"csub", "vec2 a, vec2 b",
    " return a - b; "⟩,
  ⟨"cmul", "vec2 a, vec2 b",
    " return vec2(a.x * b.x - a.y * b.y, a.x * b.y + a.y * b.x); "⟩,
  ⟨"cdiv", "vec2 a, vec2 b",
    " return vec2(a.x * b.x + a.y * b.y, a.y * b.x - a.x * b.y) / dot(b, b); "⟩,
  ⟨"cconj", "vec2 a",
    " return vec2(a.x, -a.y); "⟩,
  ⟨"cre", "vec2 a",
    " return vec2(a.x, 0.0); "⟩,
  ⟨"cim", "vec2 a",
    " return vec2(a.y, 0.0); "⟩,
  ⟨"cabs", "vec2 a",
    " return vec2(length(a), 0.0); "⟩,
  ⟨"carg", "vec2 a",
    " return vec2(atan(a.y, a.x), 0.0); "⟩,
  ⟨"cexp", "vec2 a",
    " return exp(a.x) * vec2(cos(a.y), sin(a.y)); "⟩,
  ⟨"clog", "vec2 a",
    " return vec2(log(length(a)), atan(a.y, a.x)); "⟩,
  ⟨"cpow", "vec2 a, vec2 b",
    "\n" ++
      "    if (b.x == 0.0 && b.y == 0.0) \x7b return vec2(1.0, 0.0); \x7d\n" ++
      "    if (a.x == 0.0 && a.y == 0.0 && b.x > 0.0) \x7b return vec2(0.0, 0.0); \x7d\n" ++
      "    return cexp(cmul(b, clog(a)));\n"⟩,
  ⟨"csqrt", "vec2 a",
    "\n" ++
      "    float r = length(a);\n" ++
      "    float s = a.y < 0.0 ? -1.0 : 1.0;\n" ++
      "    return vec2(sqrt(0.5 * (r + a.x)), s * sqrt(0.5 * (r - a.x)));\n"⟩,
  ⟨"csin", "vec2 a",
    " return vec2(sin(a.x) * cosh(a.y), cos(a.x) * sinh(a.y)); "⟩,
  ⟨"ccos", "vec2 a",
    " return vec2(cos(a.x) * cosh(a.y), -sin(a.x) * sinh(a.y)); "⟩,
  ⟨"ctan", "vec2 a",
    " return cdiv(csin(a), ccos(a)); "⟩,
  ⟨"ccot", "vec2 a",
    " return cdiv(ccos(a), csin(a)); "⟩,
  ⟨"csinh", "vec2 a",
    " return vec2(sinh(a.x) * cos(a.y), cosh(a.x) * sin(a.y)); "⟩,
  ⟨"ccosh", "vec2 a",
    " return vec2(cosh(a.x) * cos(a.y), sinh(a.x) * sin(a.y)); "⟩,
  ⟨"ctanh", "vec2 a",
    " return cdiv(csinh(a), ccosh(a)); "⟩,
  ⟨"ccoth", "vec2 a",
    " return cdiv(ccosh(a), csinh(a)); "⟩,
  ⟨"casin", "vec2 a",
    "\n" ++
      "    vec2 w = clog(vec2(-a.y, a.x) + csqrt(vec2(1.0, 0.0) - cmul(a, a)));\n" ++
      "    return vec2(w.y, -w.x);\n"⟩,
  ⟨"cacos", "vec2 a",
    " return vec2(1.5707963267948966, 0.0) - casin(a); "⟩,
  ⟨"catan", "vec2 a",
    "\n" ++
      "    vec2 iz = vec2(-a.y, a.x);\n" ++
      "    vec2 w = clog(vec2(1.0, 0.0) - iz) - clog(vec2(1.0, 0.0) + iz);\n" ++
      "    return 0.5 * vec2(-w.y, w.x);\n"⟩,
  ⟨"cacot", "vec2 a",
    " return catan(cdiv(vec2(1.0, 0.0), a)); "⟩,
  ⟨"casinh", "vec2 a",
    " return clog(a + csqrt(cmul(a, a) + vec2(1.0, 0.0))); "⟩,
  ⟨"cacosh", "vec2 a",
    " return clog(a + cmul(csqrt(a + vec2(1.0, 0.0)), csqrt(a - vec2(1.0, 0.0)))); "⟩,
  ⟨"catanh", "vec2 a",
    " return 0.5 * (clog(vec2(1.0, 0.0) + a) - clog(vec2(1.0, 0.0) - a)); "⟩
]

/-- The text of the prelude. -/
def text : String := definitions.foldl (fun text d => text ++ d.text) "\n"

/-- Whether the prelude defines a function of this name. -/
def defines (name : String) : Bool := definitions.any fun d => d.name = name

end FractalFormula.Prelude
