/-!
# Faults

Everything that can stop a computation, named by its cause.  `Fault.message` is
the one place that words a cause, and `Fault.family` groups the causes by what
kind of thing went wrong: the dispatch layer answers the families of malformed
input with a text and lets the others through.
-/

namespace OptimalPlans

/-- The kinds of thing that can go wrong. -/
inductive Fault.Family where
  | invalidInput
  | badValue
  | badType
  | overflow
  | badIndex
  | missingKey
  | zeroDivision
  | noLoop
  | problemFile
  | fileSystem
deriving DecidableEq, Repr

inductive Fault where
  -- problem data that a solver refuses
  | emptyMatrix (name : String)
  | raggedMatrix (name : String)
  | infiniteCost
  | emptyQuantities (name : String)
  | wrongCount (name : String) (found expected : Nat)
  | badQuantity (name : String)
  | missingData
  | cyclicPlan
  | shapeMismatch (rows cols : Nat) (agents tasks : String)
  | unknownRelation (quoted : String)
  | infiniteCoefficient
  | infiniteObjective
  | tooManyCoefficients
  | notAConstraint (quoted : String)
  | namelessActivity
  | notAnActivity (quoted : String)
  -- values of the right type that cannot be used
  | unknownMethod (shown : String)
  | notANumeral (quoted : String)
  | notAnIntegerNumeral (quoted : String)
  | longNumeral (digits : Nat)
  | nanToInteger
  -- values of the wrong type
  | noLength (type : String)
  | notIterable (type : String)
  | notSubscriptable (type : String)
  | notAReal (type : String)
  | notAnInteger (type : String)
  | notACount (type : String)
  | unhashable (type : String)
  | badOperands (operation left right : String)
  | badComparison (operation left right : String)
  | badNegation (type : String)
  | badMagnitude (type : String)
  | cannotJoin (type other : String)
  | cannotRepeat (other : String)
  -- numbers that do not fit
  | integerTooLarge
  | quotientTooLarge
  | infinityToInteger
  -- look-ups that find nothing
  | indexOutOfRange
  | assignmentOutOfRange
  | absentKey (quoted : String)
  -- arithmetic and search
  | integerDivisionByZero
  | realDivisionByZero
  | unspannedCell (cell : String)
  -- problem files
  | absentFile (path : String)
  | directory (quoted : String)
  | malformedJson (source detail : String)
  | notAnObject
  | unsupportedKind (shown : String)
deriving DecidableEq, Repr

namespace Fault

def family : Fault → Family
  | emptyMatrix _ | raggedMatrix _ | infiniteCost | emptyQuantities _
  | wrongCount _ _ _ | badQuantity _ | missingData | cyclicPlan
  | shapeMismatch _ _ _ _ | unknownRelation _ | infiniteCoefficient
  | infiniteObjective | tooManyCoefficients | notAConstraint _
  | namelessActivity | notAnActivity _ => .invalidInput
  | unknownMethod _ | notANumeral _ | notAnIntegerNumeral _ | longNumeral _
  | nanToInteger => .badValue
  | noLength _ | notIterable _ | notSubscriptable _
  | notAReal _ | notAnInteger _ | notACount _ | unhashable _
  | badOperands _ _ _ | badComparison _ _ _ | badNegation _
  | badMagnitude _ | cannotJoin _ _ | cannotRepeat _ => .badType
  | integerTooLarge | quotientTooLarge | infinityToInteger => .overflow
  | indexOutOfRange | assignmentOutOfRange => .badIndex
  | absentKey _ => .missingKey
  | integerDivisionByZero | realDivisionByZero => .zeroDivision
  | unspannedCell _ => .noLoop
  | absentFile _ | malformedJson _ _ | notAnObject | unsupportedKind _ => .problemFile
  | directory _ => .fileSystem

/-- Input that was malformed from the start: a dispatch entry answers it with
the message instead of failing. -/
def isMalformedInput (fault : Fault) : Bool :=
  match fault.family with
  | .invalidInput | .badValue | .badType => true
  | _ => false

def message : Fault → String
  | emptyMatrix name => name ++ " must be a non-empty 2D array."
  | raggedMatrix name => "All rows in " ++ name ++ " must have the same length."
  | infiniteCost => "All costs must be finite numbers."
  | emptyQuantities name => name ++ " must be a non-empty list."
  | wrongCount name found expected =>
      name ++ " has " ++ toString found ++ " entries, expected " ++
        toString expected ++ "."
  | badQuantity name => name ++ " values must be finite and non-negative."
  | missingData => "Cost matrix, supply and demand must be provided"
  | cyclicPlan => "Allocation is not a basic solution: its cells form a loop."
  | shapeMismatch rows cols agents tasks =>
      "Cost matrix is " ++ toString rows ++ "x" ++ toString cols ++ " but " ++
        agents ++ " agents and " ++ tasks ++ " tasks were given."
  | unknownRelation quoted => "Unknown constraint relation: " ++ quoted
  | infiniteCoefficient =>
      "Constraint coefficients and right-hand side must be finite numbers."
  | infiniteObjective => "Objective coefficients must be finite numbers."
  | tooManyCoefficients => "Graphical constraints take at most 2 coefficients."
  | notAConstraint quoted =>
      "Constraint must be an object with coeffs, type and rhs, got " ++ quoted
  | namelessActivity => "Every activity needs a non-empty name."
  | notAnActivity quoted =>
      "Activity must be an object with activity and predecessors, got " ++ quoted
  | unknownMethod shown => "Unknown method: " ++ shown
  | notANumeral quoted => "could not convert string to float: " ++ quoted
  | notAnIntegerNumeral quoted =>
      "invalid literal for int() with base 10: " ++ quoted
  | longNumeral digits =>
      "Exceeds the limit (4300 digits) for integer string conversion: value has " ++
        toString digits ++
        " digits; use sys.set_int_max_str_digits() to increase the limit"
  | nanToInteger => "cannot convert float NaN to integer"
  | noLength type => "object of type '" ++ type ++ "' has no len()"
  | notIterable type => "'" ++ type ++ "' object is not iterable"
  | notSubscriptable type => "'" ++ type ++ "' object is not subscriptable"
  | notAReal type =>
      "float() argument must be a string or a real number, not '" ++ type ++ "'"
  | notAnInteger type =>
      "int() argument must be a string, a bytes-like object or a real number, not '" ++
        type ++ "'"
  | notACount type =>
      "'" ++ type ++ "' object cannot be interpreted as an integer"
  | unhashable type => "unhashable type: '" ++ type ++ "'"
  | badOperands operation left right =>
      "unsupported operand type(s) for " ++ operation ++ ": '" ++ left ++
        "' and '" ++ right ++ "'"
  | badComparison operation left right =>
      "'" ++ operation ++ "' not supported between instances of '" ++ left ++
        "' and '" ++ right ++ "'"
  | badNegation type => "bad operand type for unary -: '" ++ type ++ "'"
  | badMagnitude type => "bad operand type for abs(): '" ++ type ++ "'"
  | cannotJoin type other =>
      "can only concatenate " ++ type ++ " (not \"" ++ other ++ "\") to " ++ type
  | cannotRepeat other =>
      "can't multiply sequence by non-int of type '" ++ other ++ "'"
  | integerTooLarge => "int too large to convert to float"
  | quotientTooLarge => "integer division result too large for a float"
  | infinityToInteger => "cannot convert float infinity to integer"
  | indexOutOfRange => "list index out of range"
  | assignmentOutOfRange => "list assignment index out of range"
  | absentKey quoted => quoted
  | integerDivisionByZero => "division by zero"
  | realDivisionByZero => "float division by zero"
  | unspannedCell cell =>
      "No loop through entering cell " ++ cell ++ ": basis is not spanning"
  | absentFile path => "Input file not found: " ++ path
  | directory quoted => "[Errno 21] Is a directory: " ++ quoted
  | malformedJson source detail => "Invalid JSON in " ++ source ++ ": " ++ detail
  | notAnObject => "Problem file must contain a JSON object"
  | unsupportedKind shown => "Unsupported problem kind: " ++ shown

end Fault

end OptimalPlans
