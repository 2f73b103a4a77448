import FractalFormula.FileFailure
import FractalFormula.Shader.Mode

/-!
# Errors

What can be wrong with a formula, a tree built by hand or a configuration. An error says
what is the matter; its kind groups errors for a short notice beside an input field, and
its message is the full text.
-/

namespace FractalFormula

/-- What is wrong with a configuration, a log file or a shader template. -/
inductive Problem where
  /-- The document is not valid TOML. -/
  | invalidToml
  /-- No input mode has this name. -/
  | unknownMode (name : String)
  | notString (key : String)
  | notPositiveInteger (key : String)
  | notPositiveNumber (key : String)
  /-- The section on logging is a plain value. -/
  | loggingNotTable
  /-- No log level has this name. -/
  | unknownLevel (name : String)
  | unreadableFile (path : String) (failure : FileFailure)
  | unwritableLog (path : String) (failure : FileFailure)
  /-- The shader template has no place for the formula. -/
  | noMarker (marker : String)
  /-- Anything else, in words. -/
  | other (text : String)
deriving DecidableEq, Repr

/-- The problem in words. -/
def Problem.message : Problem → String
  | invalidToml => "invalid TOML"
  | unknownMode name => "unknown input_mode '" ++ name ++ "'"
  | notString key => key ++ " must be a string"
  | notPositiveInteger key => key ++ " must be a positive integer"
  | notPositiveNumber key => key ++ " must be a positive number"
  | loggingNotTable => "[logging] must be a table"
  | unknownLevel name =>
    "loglevel must be off, none, error, warn, info, debug or trace, got '" ++ name ++ "'"
  | unreadableFile path failure => "cannot read " ++ path ++ ": " ++ failure.message
  | unwritableLog path failure => "cannot create log file " ++ path ++ ": " ++ failure.message
  | noMarker marker => "shader template has no " ++ marker ++ " marker"
  | other text => text

/-- What went wrong. Positions count the characters of the text ahead. -/
inductive Error where
  /-- Nothing can be read at this position. -/
  | syntaxError (position : Nat)
  /-- The bracket opened at this position is not closed. -/
  | unclosedBracket (position : Nat)
  | unknownFunction (name : String)
  /-- A complete formula is followed by this symbol. -/
  | unexpectedSymbol (position : Nat) (symbol : Char)
  | unknownVariable (name : String)
  /-- The mode does not allow this variable. -/
  | forbiddenVariable (name : String) (mode : Mode)
  /-- The number of children of a node does not fit it. -/
  | malformedNode (arity : Nat)
  | config (problem : Problem)
deriving DecidableEq, Repr

namespace Error

/-- The kinds of errors. -/
inductive Kind where
  | syntaxError
  | unclosedBracket
  | unknownFunction
  | unexpectedSymbol
  | unknownVariable
  | forbiddenVariable
  | malformedNode
  | config
deriving DecidableEq, Repr

namespace Kind

/-- All kinds. -/
def all : List Kind :=
  [.syntaxError, .unclosedBracket, .unknownFunction, .unexpectedSymbol, .unknownVariable,
    .forbiddenVariable, .malformedNode, .config]

/-- The tag that starts the message of every error of the kind. -/
def tag : Kind → String
  | syntaxError => "SYNTAX_ERROR"
  | unclosedBracket => "NO_CLOSE_BRACKET"
  | unknownFunction => "UNIDENTIFIED_FUNCTION"
  | unexpectedSymbol => "UNIDENTIFIED_OPERATION"
  | unknownVariable => "UNIDENTIFIED_VARIABLE"
  | forbiddenVariable => "INVALID_VARIABLE"
  | malformedNode => "MALFORMED_NODE"
  | config => "CONFIG_ERROR"

/-- The short notice for the user. -/
def notice : Kind → String
  | syntaxError => "Syntax error"
  | unclosedBracket => "Missing closing bracket"
  | unknownFunction => "Unknown function"
  | unexpectedSymbol => "Unexpected symbol"
  | unknownVariable => "Unknown variable"
  | forbiddenVariable => "Variable not allowed in this mode"
  | malformedNode => "Malformed expression"
  | config => "Invalid configuration"

end Kind

/-- The kind of an error. -/
def kind : Error → Kind
  | .syntaxError _ => .syntaxError
  | .unclosedBracket _ => .unclosedBracket
  | .unknownFunction _ => .unknownFunction
  | .unexpectedSymbol _ _ => .unexpectedSymbol
  | .unknownVariable _ => .unknownVariable
  | .forbiddenVariable _ _ => .forbiddenVariable
  | .malformedNode _ => .malformedNode
  | .config _ => .config

/-- What follows the tag in the message. Readers count positions from one. -/
def detail : Error → String
  | .syntaxError position => " at position " ++ Nat.repr (position + 1)
  | .unclosedBracket position =>
    ": bracket opened at position " ++ Nat.repr (position + 1) ++ " is not closed"
  | .unknownFunction name => ": '" ++ name ++ "'"
  | .unexpectedSymbol position symbol =>
    ": '" ++ String.singleton symbol ++ "' at position " ++ Nat.repr (position + 1)
  | .unknownVariable name => ": '" ++ name ++ "'"
  | .forbiddenVariable name mode => ": '" ++ name ++ "' in " ++ mode.name ++ " mode"
  | .malformedNode arity => ": node with " ++ Nat.repr arity ++ " children"
  | .config problem => ": " ++ problem.message

/-- The full message. -/
def message (e : Error) : String := e.kind.tag ++ e.detail

end Error

end FractalFormula
