import StackBackend.Command.Log

/-!
# The command

Reads the source, prints and writes what the command says, and shows its log and its failure on
the error stream.
-/

namespace StackBackend.Command

/-- The text of a failure: its outermost message and the causes below it. -/
def failureText : List String → String
  | [] => "Error"
  | [message] => "Error: " ++ message
  | message :: causes =>
      "Error: " ++ message ++ "\n\nCaused by:\n" ++ "\n".intercalate (causes.map ("    " ++ ·))

/-- The text of a usage error. -/
def usageText : UsageError → String
  | .help => "usage: [-r BUDGET] [-o OUTPUT] [-v] [--debug] SOURCE"
  | .unknownArgument => "error: unknown argument"
  | .unneededValue => "error: a flag takes no value"
  | .emptyValue => "error: an option needs a value"
  | .missingSource => "error: the source is missing"
  | .invalidValue => "error: the register budget is not an integer"
  | .repeatedUse => "error: an option is given twice"

/-- The text of the cause of a failure on a file. -/
def causeText : IO.Error → String
  | .noFileOrDirectory .. => noSuchFile
  | e => toString e

/-- The text of a file, or why there is none. -/
def readSource (path : String) : IO (Except String String) := do
  try
    return .ok (← IO.FS.readFile path)
  catch e =>
    return .error (causeText e)

/-- Writes a file, and gives the messages of the failure if there is one. -/
def writeOutput (path text : String) : IO (Option (List String)) := do
  try
    IO.FS.writeFile path text
    return none
  catch e =>
    return some (writeFailure path (causeText e))

/-- Runs a command, and gives its exit code. -/
def execute (o : Options) : IO UInt32 := do
  let source ← readSource o.source
  if let .ok text := source then
    (o.logLines text).forM IO.eprintln
  let outcome := o.run source
  IO.print outcome.printed
  let failure ← match outcome.file with
    | some (path, text) => writeOutput path text
    | none => pure outcome.failure
  match failure with
  | some messages =>
      IO.eprintln (failureText messages)
      return 1
  | none => return 0

/-- Runs the command that the arguments ask for, and gives its exit code. -/
def executeArgs (args : List String) : IO UInt32 := do
  match Options.ofArgs args with
  | .error .help =>
      IO.println (usageText .help)
      return 0
  | .error e =>
      IO.eprintln (usageText e)
      return 2
  | .ok o => execute o

end StackBackend.Command

/-- The command. -/
def main (args : List String) : IO UInt32 := StackBackend.Command.executeArgs args
