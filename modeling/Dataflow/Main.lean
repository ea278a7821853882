import Dataflow.Command.Run

/-!
# The command line

Reads the arguments, two environment variables and one file, and prints what the command answers.
The exit code is 0 for an answer, 1 for an error and 2 for a command line that makes no sense.
-/

namespace Dataflow

/-- How the program is called. -/
def usageText : String :=
  "usage: dataflow validate --plan FILE\n" ++
  "       dataflow explain --plan FILE [--walker WALKER] [--json]\n" ++
  "       dataflow optimize --plan FILE [--max-passes N] [--trace]\n"

/-- The contents of a file. A name that is too long is known by the number of the error, which comes
with either sign. -/
def readContents (path : String) : IO (Except FileError String) := do
  try
    match String.fromUTF8? (← IO.FS.readBinFile path) with
    | some text => return .ok text
    | none => return .error .notText
  catch
    | .noFileOrDirectory .. => return .error .notFound
    | .inappropriateType none .. => return .error .directory
    | .inappropriateType (some _) .. => return .error .notDirectory
    | e@(.invalidArgument _ code _) =>
      return .error (if code = 36 || code = 0 - 36 then .nameTooLong else .other (toString e))
    | e => return .error (.other (toString e))

/-- The settings that the environment asks for. -/
def readConfig : IO Config := do
  let maxPasses? ← IO.getEnv Config.maxPassesVariable
  let trace? ← IO.getEnv Config.traceRewritesVariable
  return .ofEnvironment fun name ↦
    if name = Config.maxPassesVariable then maxPasses? else trace?

end Dataflow

open Dataflow

/-- Runs the command that the arguments ask for. -/
def main (arguments : List String) : IO UInt32 := do
  let err ← IO.getStderr
  match Command.ofArguments arguments with
  | .error e =>
    err.putStr s!"error: {e.message}\n\n{usageText}"
    return 2
  | .ok command =>
    match command.run (← readContents command.path) (← readConfig) with
    | .ok text =>
      (← IO.getStdout).putStr text
      return 0
    | .error e =>
      err.putStr (command.errorLine e)
      return 1
