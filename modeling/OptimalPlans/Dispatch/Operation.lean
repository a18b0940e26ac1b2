import OptimalPlans.Dispatch.Document

/-!
# The dispatch table

One entry for each kind of problem.  Without input an entry describes the kind and
its methods; otherwise it solves the problem.  Malformed input is answered with a
text.  Faults of any other family are passed on.
-/

namespace OptimalPlans.Dispatch

/-- The arguments of a call: some by position, some by name. -/
structure Arguments where
  positional : List Value
  named : Fields

/-- An argument by its place and name, or what it is when it is left out. -/
def Arguments.get (arguments : Arguments) (place : Nat) (name : String)
    (default : Value) : Value :=
  match arguments.positional[place]? with
  | some value => value
  | none => arguments.named.getOr name default

/-- The result of an attempt, or the text for malformed input, which is noted. -/
def rejecting {β : Type} (subject : String) (attempt : Journal β) :
    Journal (Except String β) :=
  (Except.ok <$> attempt).recover fun fault =>
    if fault.isMalformedInput then
      some do
        Journal.note .dispatch .warning
          (subject ++ " input rejected: " ++ fault.message)
        return .error fault.message
    else none

/-- An attempt whose malformed input is answered. -/
def answering (subject : String) (attempt : Journal Answer) : Journal Answer := do
  match ← rejecting subject attempt with
  | .ok answer => return answer
  | .error text => return .notice text

def transportation (arguments : Arguments) : Journal Answer := do
  let method := arguments.get 0 "method" .null
  let cost := arguments.get 1 "cost" .null
  let supply := arguments.get 2 "supply" .null
  let demand := arguments.get 3 "demand" .null
  let limit := arguments.get 4 "max_iterations" (.integer Transport.defaultLimit)
  let tolerance := arguments.get 5 "tolerance" (.number Transport.defaultTolerance)
  if method.isNull then
    return .prompt .transportation
  else if cost.isNull || supply.isNull || demand.isNull then
    return .notice Fault.missingData.message
  else
    match Transport.Method.ofValue method with
    | .error fault =>
        if fault.family = .badValue then return .notice "Invalid or unknown method"
        else throw fault
    | .ok _ =>
        answering "Transportation" do
          return .transport
            (← Transport.solve method cost supply demand limit.toCount tolerance.toSigned)

/-- The declared number of agents or tasks, or the one of the matrix. -/
def declaredCount (declared : Value) (counted : Except Fault Nat) :
    Except Fault Value := do
  if declared.isNull then return .integer (← counted) else return declared

def assignment (arguments : Arguments) : Journal Answer := do
  let agents := arguments.get 0 "agents" .null
  let tasks := arguments.get 1 "tasks" .null
  let cost := arguments.get 2 "cost_matrix" .null
  if agents.isNull && tasks.isNull && cost.isNull then
    return .prompt .assignment
  else if cost.isNull then
    return .notice (Fault.emptyMatrix Transport.costMatrixName).message
  else
    answering "Assignment" do
      let agents ← declaredCount agents cost.length
      let tasks ← declaredCount tasks do
        if (← cost.length) = 0 then return 0 else (← cost.first).length
      let agents ← agents.toInteger
      let tasks ← tasks.toInteger
      return .assignment (← Assignment.solve (.integer agents) (.integer tasks) cost)

/-- Reads a linear program. -/
def readProgram (unknowns objective maximize constraints : Value) :
    Except Fault (Plane.Program Number) := do
  let coefficients ← (← objective.elements).mapM Value.toReal
  if !coefficients.all Double.isFinite then throw .infiniteObjective
  let values ← if constraints.isTruthy then constraints.elements else pure []
  let constraints ← values.mapM Plane.Constraint.ofValue
  let unknowns ← unknowns.toInteger
  return { unknowns := .integer unknowns, objective := coefficients.map .double,
           maximize := maximize.isTruthy, constraints }

/-- Solves a program and draws its boundary lines. -/
def solveProgram (program : Plane.Program Number) : Journal Answer := do
  match ← Plane.solve program Plane.defaultTolerance with
  | .tooManyVariables => return .tooManyVariables
  | .infeasible => return .infeasible
  | .solved solution => return .program solution (← solution.lines)

def linearProgramming (arguments : Arguments) : Journal Answer := do
  let method := arguments.get 0 "method" .null
  let unknowns := arguments.get 1 "variable_count" .null
  let objective := arguments.get 2 "objective" .null
  let maximize := arguments.get 3 "maximize" (.truth true)
  let constraints := arguments.get 4 "constraints" .null
  if method.isNull then
    return .prompt .linearProgramming
  else if method.isText "simplex" then
    return .notice ("Simplex method is not implemented yet. " ++
      "Please use the Graphical method for 2 variables.")
  else if !method.isText "graph" then
    return .notice "Invalid or unknown method"
  else if unknowns.isNull || objective.isNull then
    return .notice "Number of variables and objective coefficients must be provided"
  else
    match ← rejecting "LP" (readProgram unknowns objective maximize constraints) with
    | .error text => return .notice text
    | .ok program => solveProgram program

def networkFlow (arguments : Arguments) : Journal Answer := do
  let activities := arguments.get 0 "activities" .null
  if activities.isNull then
    return .prompt .networkFlow
  else
    let attempt : Except Fault (List Precedence.Activity) := do
      (← activities.elements).mapM Precedence.Activity.ofValue
    match ← rejecting "Network" attempt with
    | .error text => return .notice text
    | .ok activities => return .network (← Precedence.analyse activities)

/-- The entry for a kind. -/
def operate (kind : Kind) (arguments : Arguments) : Journal Answer :=
  match kind with
  | .transportation => transportation arguments
  | .assignment => assignment arguments
  | .linearProgramming => linearProgramming arguments
  | .networkFlow => networkFlow arguments

/-- Calls the entry that a value names. -/
def call (name : Value) (arguments : Arguments) : Journal Answer := do
  match ← Kind.resolve name with
  | some kind => operate kind arguments
  | none => return .unknownOperation

end OptimalPlans.Dispatch
