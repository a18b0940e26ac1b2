import OptimalPlans.Dispatch.Operation
import OptimalPlans.Json.Reader

/-!
# Problem files

A problem file is a JSON object.  Its fields become the arguments of the entry for
its kind; a method given on the command line wins over the one in the file.
-/

namespace OptimalPlans.ProblemFile

/-- The source that stands for the standard input. -/
def standardInput : String := "-"

/-- The fields of a problem document. -/
def load (source text : String) : Journal Fields := do
  match Json.read text with
  | .error refusal => throw (refusal.fault source text)
  | .ok (.record fields) =>
      let names := (fields.map (·.1)).mergeSort fun a b => !decide (b < a)
      Journal.note .problemFile .debug
        ("Loaded problem with keys " ++ (Value.list (names.map Value.text)).quoted)
      return fields
  | .ok _ => throw .notAnObject

/-- A given method, unless it is empty, or else the one of a file. -/
def methodOr (given : Value) (fields : Fields) (default : String) : Value :=
  if given.isTruthy then given else fields.getOr "method" (.text default)

/-- How many coefficients an objective has, where there is one. -/
def objectiveSize (objective : Value) : Except Fault Value := do
  if objective.isTruthy then return .integer (← objective.length) else return .null

/-- The arguments for the entry of a kind. -/
def arguments (kind : Dispatch.Kind) (fields : Fields) (method : Value) :
    Except Fault Dispatch.Arguments := do
  match kind with
  | .transportation =>
      return { positional := [methodOr method fields "modi", fields.getOr "cost" .null,
                 fields.getOr "supply" .null, fields.getOr "demand" .null],
               named := [] }
  | .assignment =>
      return { positional := [fields.getOr "agents" .null, fields.getOr "tasks" .null,
                 fields.getOr "cost" (fields.getOr "costMatrix" .null)],
               named := [] }
  | .linearProgramming =>
      let objective := fields.getOr "objective" .null
      let unknowns := fields.getOr "variables" (← objectiveSize objective)
      let isMax := (fields.getOr "objectiveType" (.text "max")).isText "max"
      return { positional := [methodOr method fields "graph", unknowns, objective,
                 fields.getOr "maximize" (.truth isMax),
                 fields.getOr "constraints" (.list [])],
               named := [] }
  | .networkFlow =>
      return { positional := [fields.getOr "activities" (.list [])], named := [] }

/-- A path without empty and trivial parts. -/
def tidyPath (path : String) : String :=
  let slashes := (path.toList.takeWhile (· = '/')).length
  let root := if slashes = 0 then "" else if slashes = 2 then "//" else "/"
  let parts := (path.splitOn "/").filter fun part => part ≠ "" && part ≠ "."
  let tidy := root ++ String.intercalate "/" parts
  if tidy.isEmpty then "." else tidy

/-- Every kind of line break as a newline. -/
def plainBreaks : List Char → List Char
  | '\r' :: '\n' :: rest => '\n' :: plainBreaks rest
  | '\r' :: rest => '\n' :: plainBreaks rest
  | c :: rest => c :: plainBreaks rest
  | [] => []

/-- Whether a path leads to a directory: the root, the working directory or one above
it, or one that holds a named file. -/
def isDirectory (files : List (String × String)) (path : String) : Bool :=
  path == "/" || path == "." || (path.splitOn "/").all (· == "..") ||
    files.any fun file => (tidyPath file.1).startsWith (path ++ "/")

/-- The contents of a file among named files. -/
def lookUp (files : List (String × String)) (path : String) : Except Fault String :=
  let path := tidyPath path
  match files.find? fun file => tidyPath file.1 == path with
  | some (_, text) => .ok (String.ofList (plainBreaks text.toList))
  | none =>
      if isDirectory files path then .error (.directory (Quoted.quote path))
      else .error (.absentFile path)

/-- The contents of a source: the standard input, or one of some named files. -/
def contents (standardText : String) (files : List (String × String)) (source : String) :
    Except Fault String :=
  if source == standardInput then .ok standardText else lookUp files source

end OptimalPlans.ProblemFile
