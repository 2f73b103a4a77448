/-!
# Replacement in text

Every occurrence of a marker, found from left to right without overlap, gives way to
another text.
-/

namespace FractalFormula.Text

/-- Whether `mark` occurs in `text`. -/
def occurs (mark : List Char) : List Char → Bool
  | [] => mark.isEmpty
  | c :: rest => mark.isPrefixOf (c :: rest) || occurs mark rest

/-- `replaceFrom mark new skip text` replaces in what remains of `text` once the first `skip`
characters, the end of an occurrence already replaced, are passed over. -/
def replaceFrom (mark new : List Char) : Nat → List Char → List Char
  | _, [] => []
  | skip + 1, _ :: rest => replaceFrom mark new skip rest
  | 0, c :: rest =>
    if mark.isPrefixOf (c :: rest) then new ++ replaceFrom mark new (mark.length - 1) rest
    else c :: replaceFrom mark new 0 rest

/-- `text` with every occurrence of `mark`, which is not empty, replaced by `new`. -/
def replace (mark new text : List Char) : List Char := replaceFrom mark new 0 text

end FractalFormula.Text
