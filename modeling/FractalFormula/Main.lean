import FractalFormula.Demo

/-!
# Command line

Reads the configuration, creates the log file it names, and prints an example. Nothing is
written to the log.
-/

namespace FractalFormula.CommandLine

/-- The failure that an error of the system stands for. -/
def failureOf : IO.Error → FileFailure
  | .alreadyExists _ code words | .noFileOrDirectory _ code words
  | .invalidArgument _ code words | .permissionDenied _ code words
  | .resourceExhausted _ code words | .inappropriateType _ code words
  | .noSuchThing _ code words | .interrupted _ code words
  | .otherError code words | .resourceBusy code words | .resourceVanished code words
  | .unsupportedOperation code words | .hardwareFault code words
  | .unsatisfiedConstraints code words | .illegalOperation code words
  | .protocolError code words | .timeExpired code words => .system code.toNat words
  | .unexpectedEof | .userError _ => .system 5 "Input/output error"

/-- The result of an action on the file at `path`, or the reason why it failed. -/
def tryFile {β : Type} (path : String) (action : IO β) : IO (Except FileFailure β) := do
  match FileFailure.ofPath? path with
  | some failure => return .error failure
  | none =>
    try
      return .ok (← action)
    catch e =>
      return .error (failureOf e)

/-- The contents of a file, or the reason why it cannot be read. -/
def readContents (path : String) : IO (Except FileFailure ByteArray) :=
  tryFile path do
    let file ← IO.FS.Handle.mk path .read
    file.readBinToEnd

/-- Creates the log file that a configuration names, and yields what was wrong with it. -/
def createLog (c : Config) : IO (Option Error) := do
  match Config.logFileToCreate c.level c.logFile with
  | .error e => return some e
  | .ok (some (.path path)) =>
    match ← tryFile path (IO.FS.writeFile path "") with
    | .ok _ => return none
    | .error failure => return some (.config (.unwritableLog path failure))
  | .ok _ => return none

end FractalFormula.CommandLine

open FractalFormula CommandLine in
/-- Prints the example that the arguments ask for. -/
def main (args : List String) : IO UInt32 := do
  let config ←
    match Demo.configPath? args with
    | none => pure (.ok Config.default)
    | some path => Config.ofFile path <$> readContents path
  let logError ←
    match config with
    | .ok c => createLog c
    | .error _ => pure none
  let output := Demo.run .ample args config logError
  output.stderr.forM IO.eprintln
  output.stdout.forM IO.println
  return output.status.toUInt32
