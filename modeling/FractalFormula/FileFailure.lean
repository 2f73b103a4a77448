/-!
# Failures of files

Why a file cannot be read or created, and how that is said. What the system reports is passed
on with its number; a name that the system could not be given, and a content that is not
text, have words of their own.
-/

namespace FractalFormula

/-- Why a file cannot be read or created. -/
inductive FileFailure where
  /-- The system reports an error with this number, in these words. -/
  | system (code : Nat) (words : String)
  /-- The name contains the character that ends names. -/
  | nulInName
  /-- The content is not text in UTF-8. -/
  | notUtf8
deriving DecidableEq, Repr

namespace FileFailure

/-- The failure in words. -/
def message : FileFailure → String
  | system code words => words ++ " (os error " ++ Nat.repr code ++ ")"
  | nulInName => "file name contained an unexpected NUL byte"
  | notUtf8 => "stream did not contain valid UTF-8"

/-- What is wrong with a path before the system is asked. -/
def ofPath? (path : String) : Option FileFailure :=
  if path.toList.contains '\x00' then some .nulInName else none

end FileFailure

end FractalFormula
