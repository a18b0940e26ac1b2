import OptimalPlans.CommandLine.Invocation
import OptimalPlans.Json.Printer
import OptimalPlans.ProblemFile

/-!
# Running a command line

What a command line leads to: the text for the standard output, an exit code, and
the notes that were taken.  The code is zero when the problem is solved or its kind
is described.  Every fault ends in a note, so a run always has an outcome.
-/

namespace OptimalPlans.CommandLine

structure Outcome where
  code : Nat
  output : String
deriving DecidableEq, Repr

namespace Outcome

/-- A run that failed before it had anything to write. -/
def failed : Outcome where
  code := 1
  output := ""

def ofDocument (code : Nat) (document : Value) : Outcome where
  code := code
  output := Json.write document ++ "\n"

def ofAnswer (answer : Dispatch.Answer) : Outcome :=
  ofDocument (if answer.isFailure then 1 else 0) answer.document

end Outcome

/-- A failed run with a note that says why. -/
def failWith (text : String) : Journal Outcome := do
  Journal.note .commandLine .error text
  return .failed

/-- The arguments for the entry of a kind.  Limit and tolerance of the command line
go to the transportation entry only. -/
def callArguments (invocation : Invocation) (kind : Dispatch.Kind) (fields : Fields) :
    Except Fault Dispatch.Arguments := do
  let method := (invocation.method.map Value.text).getD .null
  let arguments ← ProblemFile.arguments kind fields method
  match kind with
  | .transportation =>
      return { arguments with
        named := arguments.named ++
          [("max_iterations", .integer invocation.limit),
           ("tolerance", .double invocation.tolerance)] }
  | _ => return arguments

/-- Solves the problem in a file of the given contents. -/
def solveFile (invocation : Invocation) (kind : Dispatch.Kind) (source : String)
    (contents : Except Fault String) : Journal Outcome := do
  let text ← contents
  let fields ← ProblemFile.load source text
  let arguments ← callArguments invocation kind fields
  Journal.note .commandLine .info
    ("Solving " ++ kind.name ++ " problem from " ++ source)
  return .ofAnswer (← Dispatch.operate kind arguments)

/-- Does what an invocation asks for; a fault may still stop it. -/
def attempt (invocation : Invocation) (contents : String → Except Fault String) :
    Journal Outcome :=
  match Dispatch.Kind.ofName? invocation.problem with
  | none => failWith ("Unknown problem kind: " ++ invocation.problem)
  | some kind =>
      if invocation.describe then
        pure (.ofDocument 0 (Dispatch.Answer.prompt kind).document)
      else
        match invocation.input with
        | none | some "" => failWith "--input is required unless --describe is given"
        | some source => solveFile invocation kind source (contents source)

/-- How a fault is reported. -/
def reportOf (fault : Fault) : String :=
  if fault.family = .problemFile then fault.message
  else "Error occurred: " ++ fault.message

/-- Does what an invocation asks for and reports the fault that stops it, if any. -/
def execute (invocation : Invocation) (contents : String → Except Fault String) :
    Journal Outcome :=
  (attempt invocation contents).recover fun fault => some (failWith (reportOf fault))

/-- The notes a run shows: debug notes only when it is verbose. -/
def shownNotes (invocation : Invocation) (notes : List Note) : List Note :=
  notes.filter fun note => invocation.verbose || note.level.isBrief

/-- The exit code of a command line that is rejected. -/
def rejectedCode : Nat := 2

/-- Reads a command line with the limit and the tolerance that refinement has by
itself. -/
def parseArguments (arguments : List String) : Parsed :=
  parse arguments Transport.defaultLimit Transport.toleranceBound

end OptimalPlans.CommandLine
