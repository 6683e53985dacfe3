import DocBase.CommandLine.Command
/-!
# The program

Reads the arguments and the files they name, runs the command and prints its report or what went
wrong.
-/

namespace DocBase.CommandLine

/-- The text of a file, if it can be read. -/
def readText (path : String) : IO (Option String) :=
  try
    let text ← IO.FS.readFile path
    return some text
  catch _ => return none

/-- What an error says, and below it what it comes from. -/
def printError : List String → IO Unit
  | [] => pure ()
  | first :: causes => do
    IO.eprintln ("Error: " ++ first)
    for cause in causes do
      IO.eprintln ("Caused by: " ++ cause)

/-- Runs a command and answers the exit code. -/
def perform (a : Arguments) : IO UInt32 := do
  let texts ← a.paths.mapM fun path => do
    let text ← readText path
    return (path, text)
  let started ← IO.monoMsNow
  match a.run fun path => (texts.lookup path).join with
  | .error e =>
    printError e.chain
    return 1
  | .ok report =>
    let ended ← IO.monoMsNow
    let output := report.render a.command.format (ended - started)
    if !output.isEmpty then IO.println output
    return 0

/-- Runs the program and answers the exit code. -/
def program (arguments : List String) : IO UInt32 := do
  match Arguments.parse arguments with
  | .ok a => perform a
  | .error .help =>
    IO.println UsageError.help.message
    return 0
  | .error .version =>
    IO.println UsageError.version.message
    return 0
  | .error e =>
    IO.eprintln ("error: " ++ e.message)
    return 2

end DocBase.CommandLine

def main (arguments : List String) : IO UInt32 := DocBase.CommandLine.program arguments
