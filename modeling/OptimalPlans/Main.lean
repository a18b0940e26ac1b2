import OptimalPlans.CommandLine.Run

/-!
# The program

The outer layer: it reads the input that a command line names, writes the document
to the standard output and the notes to the standard error, and exits with the code
of the outcome.
-/

namespace OptimalPlans

open CommandLine

def usage : String :=
  "usage: optimal-plans [-h] [-i INPUT] [-m METHOD] [--describe] [--max-iter N] " ++
    "[--tolerance X] [-v] problem"

/-- All lines of the standard input. -/
partial def readStandardInput (stream : IO.FS.Stream) (text : String) : IO String := do
  let line ← stream.getLine
  if line.isEmpty then return text else readStandardInput stream (text ++ line)

/-- The contents of a file, or the fault of not getting them. -/
def readInputFile (path : String) : IO (Except Fault String) := do
  try
    let text ← IO.FS.readFile path
    return .ok (String.ofList (ProblemFile.plainBreaks text.toList))
  catch failure =>
    match failure with
    | .noFileOrDirectory _ _ _ => return .error (.absentFile (ProblemFile.tidyPath path))
    | _ => return .error (.directory (Quoted.quote (ProblemFile.tidyPath path)))

/-- The contents of the source that an invocation names. -/
def readSource (invocation : Invocation) : IO (Except Fault String) := do
  match invocation.input with
  | none => return .ok ""
  | some source =>
      if invocation.describe || source.isEmpty then
        return .ok ""
      else if source == ProblemFile.standardInput then
        return .ok (← readStandardInput (← IO.getStdin) "")
      else
        readInputFile source

def runInvocation (invocation : Invocation) : IO UInt32 := do
  let contents ← readSource invocation
  let journal := execute invocation fun _ => contents
  for note in shownNotes invocation journal.notes do
    IO.eprintln note.line
  match journal.result with
  | .ok outcome =>
      IO.print outcome.output
      return outcome.code.toUInt32
  | .error fault =>
      IO.eprintln fault.message
      return 1

end OptimalPlans

def main (arguments : List String) : IO UInt32 := do
  match OptimalPlans.CommandLine.parseArguments arguments with
  | .rejected =>
      IO.eprintln OptimalPlans.usage
      return 2
  | .help =>
      IO.println OptimalPlans.usage
      return 0
  | .run invocation => OptimalPlans.runInvocation invocation
