import OptimalPlans.Journal
import OptimalPlans.Transport.Basic
import OptimalPlans.Value.Basic

/-!
# Validation

Reading a transportation problem from values.  A cost matrix is a non-empty list
of equally long, non-empty rows of finite numbers; supply and demand are lists of
finite, non-negative numbers, one for each row and one for each column.  Totals
need not agree.
-/

namespace OptimalPlans.Transport

/-- The number a value is, if it is finite. -/
def finiteNumber? (value : Value) : Except Fault (Option Number) := do
  if ← value.isFiniteNumber then return value.number? else return none

def costRow (name : String) (cols : Nat) (row : Value) : Except Fault (List Number) := do
  if (← row.length) ≠ cols then throw (.raggedMatrix name)
  (← row.elements).mapM fun value => do
    match ← finiteNumber? value with
    | some number => return number
    | none => throw .infiniteCost

/-- A cost matrix and the length of its rows. -/
def costMatrix (name : String) (value : Value) :
    Except Fault (Table Number × Nat) := do
  if value.isNull then throw (.emptyMatrix name)
  if (← value.length) = 0 then throw (.emptyMatrix name)
  let cols ← (← value.first).length
  if cols = 0 then throw (.emptyMatrix name)
  let rows ← (← value.elements).mapM (costRow name cols)
  return (rows, cols)

def quantities (name : String) (expected : Nat) (value : Value) :
    Except Fault (List Number) := do
  if value.isNull then throw (.emptyQuantities name)
  let count ← value.length
  if count = 0 then throw (.emptyQuantities name)
  if count ≠ expected then throw (.wrongCount name count expected)
  (← value.elements).mapM fun value => do
    match ← finiteNumber? value with
    | some number =>
        if number.less (.integer 0) then throw (.badQuantity name) else return number
    | none => throw (.badQuantity name)

/-- The name of a cost matrix in messages. -/
def costMatrixName : String := "costMatrix"

def readProblem (cost supply demand : Value) : Except Fault (Problem Number) := do
  if cost.isNull || supply.isNull || demand.isNull then throw .missingData
  let (rows, cols) ← costMatrix costMatrixName cost
  let supply ← quantities "Supply" rows.length supply
  let demand ← quantities "Demand" cols demand
  return { cost := rows, supply, demand }

/-- Reads a problem and notes when its totals differ. -/
def validate (cost supply demand : Value) : Journal (Problem Number) := do
  let problem ← readProblem cost supply demand
  let supplied ← Scalar.sum problem.supply
  let demanded ← Scalar.sum problem.demand
  if !Scalar.same supplied demanded then
    Journal.note .transportInput .debug
      ("Unbalanced instance: supply=" ++ Scalar.text supplied ++ ", demand=" ++
        Scalar.text demanded)
  return problem

end OptimalPlans.Transport
