import FractalFormula.Config.Level
import FractalFormula.Orbit.Basic
import FractalFormula.Toml.Reader

/-!
# Configuration

The settings of the engine, read from a TOML document:

    input_mode = "single_complex"
    max_iterations = 256
    bailout = 4.0
    simplify_passes = 8

    [logging]
    level = "info"
    file = "auto"

Every key may be left out and then has its default; other keys are ignored. The keys are
checked in the order above, and the first that is not valid is the error.
-/

namespace FractalFormula

/-- Where the log is written. -/
inductive LogFile where
  /-- A file named for the time at which logging starts. -/
  | timestamped
  | path (path : String)
deriving DecidableEq, Repr

/-- The settings of the engine. -/
structure Config where
  mode : Mode
  /-- The greatest number of steps of an iteration. -/
  maxIterations : Nat
  /-- The radius beyond which an orbit has escaped. -/
  bailout : Float
  /-- The greatest number of passes of simplification. -/
  passes : Nat
  /-- The name of the log level, as written. -/
  level : String
  logFile : Option LogFile
deriving DecidableEq

namespace Config

/-- The settings of an empty document. -/
def default : Config where
  mode := .singleComplex
  maxIterations := 256
  bailout := 4.0
  passes := 8
  level := "info"
  logFile := none

/-- A setting, which fails on a problem. -/
abbrev Setting (β : Type) := Except Error β

/-- The error about a problem. -/
def fail {β : Type} (problem : Problem) : Setting β := .error (.config problem)

/-- A value that must be a string. -/
def stringAt (key : String) (v : Toml.Value) : Setting String :=
  match v.string? with
  | some s => .ok s
  | none => fail (.notString key)

/-- A value that must be a positive integer. -/
def positiveIntegerAt (key : String) (v : Toml.Value) : Setting Nat :=
  match v.integer? with
  | some n => if 0 < n then .ok n.toNat else fail (.notPositiveInteger key)
  | none => fail (.notPositiveInteger key)

/-- A value that must be a positive finite number. -/
def positiveNumberAt (key : String) (v : Toml.Value) : Setting Float :=
  match v.number? with
  | some x => if 0.0 < x && x.isFinite then .ok x else fail (.notPositiveNumber key)
  | none => fail (.notPositiveNumber key)

/-- A value that must be the name of an input mode. -/
def modeAt (key : String) (v : Toml.Value) : Setting Mode := do
  let name ← stringAt key v
  match Mode.ofName? name with
  | some mode => return mode
  | none => fail (.unknownMode name)

/-- A value that must be the name of a log level; it is kept as written. -/
def levelAt (key : String) (v : Toml.Value) : Setting String := do
  let name ← stringAt key v
  let _ ← Level.parse name
  return name

/-- A value that must be the path of a log file. -/
def logFileAt (key : String) (v : Toml.Value) : Setting LogFile := do
  let path ← stringAt key v
  return if path = "auto" then .timestamped else .path path

/-- A value that must be a table. -/
def tableAt (v : Toml.Value) : Setting Toml.Table :=
  match v.table? with
  | some t => .ok t
  | none => fail .loggingNotTable

/-- The value of a key read by `read`, or the default if the key is left out. -/
def setting {β : Type} (t : Toml.Table) (key : String) (default : β)
    (read : Toml.Value → Setting β) : Setting β :=
  match t.get? key with
  | none => .ok default
  | some v => read v

/-- The settings of a document. -/
def ofTable (t : Toml.Table) : Except Error Config := do
  let mode ← setting t "input_mode" default.mode (modeAt "input_mode")
  let maxIterations ←
    setting t "max_iterations" default.maxIterations (positiveIntegerAt "max_iterations")
  let bailout ← setting t "bailout" default.bailout (positiveNumberAt "bailout")
  let passes ← setting t "simplify_passes" default.passes (positiveIntegerAt "simplify_passes")
  let logging ← setting t "logging" [] tableAt
  let level ← setting logging "level" default.level (levelAt "logging.level")
  let logFile ←
    setting logging "file" default.logFile fun v => some <$> logFileAt "logging.file" v
  return ⟨mode, maxIterations, bailout, passes, level, logFile⟩

/-- The settings of a document in text. -/
def ofToml (text : String) : Except Error Config :=
  match Toml.parse? text with
  | some t => ofTable t
  | none => fail .invalidToml

/-- The settings of the document in the file at `path`, given its bytes or the reason why it
cannot be read. -/
def ofFile (path : String) (contents : Except FileFailure ByteArray) : Except Error Config :=
  match contents with
  | .error failure => fail (.unreadableFile path failure)
  | .ok bytes =>
    match String.fromUTF8? bytes with
    | some text => ofToml text
    | none => fail (.unreadableFile path .notUtf8)

/-- When iterations end under these settings. The cap of a document fits into a word. -/
def escapeRule {α : Type _} [Scalar α] (c : Config) : EscapeRule α :=
  ⟨.ofNat c.maxIterations, c.bailout, 0⟩

/-- The log file that has to be created for a level and a file, if the level is valid: none
while logging is off. -/
def logFileToCreate (level : String) (file : Option LogFile) : Except Error (Option LogFile) := do
  let level ← Level.parse level
  return if level = .off then none else file

end Config

end FractalFormula
