import OptimalPlans.Transport.NorthWest
import OptimalPlans.Transport.Refinement
import OptimalPlans.Transport.Validation

/-!
# Solving transportation problems

A method is one of the three initial rules, or the refinement of the penalty rule
to an optimal plan.  Methods are chosen by key or alias.
-/

namespace OptimalPlans.Transport

/-- A rule for a first basic plan. -/
inductive InitialRule where
  | northWest
  | leastCost
  | penalty
deriving DecidableEq, Repr

inductive Method where
  | initial (rule : InitialRule)
  | refined
deriving DecidableEq, Repr

namespace Method

def key : Method → String
  | initial .northWest => "northWest"
  | initial .leastCost => "leastCost"
  | initial .penalty => "vogels"
  | refined => "modi"

def label : Method → String
  | initial .northWest => "North-West Method"
  | initial .leastCost => "Least Cost Method"
  | initial .penalty => "Vogel's Approximation Method"
  | refined => "MODI Method (Optimal Solution)"

def all : List Method :=
  [initial .northWest, initial .leastCost, initial .penalty, refined]

def ofName? : String → Option Method
  | "northWest" | "north_west" => some (initial .northWest)
  | "leastCost" | "least_cost" => some (initial .leastCost)
  | "vogels" | "vogel" => some (initial .penalty)
  | "modi" => some refined
  | _ => none

/-- The method that a value names. -/
def ofValue (value : Value) : Except Fault Method := do
  match ← value.lookedUp with
  | .text name =>
      match ofName? name with
      | some method => return method
      | none => throw (.unknownMethod name)
  | other => throw (.unknownMethod other.shown)

end Method

variable {α : Type} [Scalar α]

def InitialRule.plan (rule : InitialRule) (problem : Problem α) :
    Journal (List (Allocation α)) :=
  match rule with
  | northWest => Journal.ofExcept (Transport.northWest problem)
  | leastCost => Journal.ofExcept (Transport.leastCost problem)
  | penalty => notedPenaltyRule problem

inductive Solution (α : Type) where
  | initial (rule : InitialRule) (allocations : List (Allocation α)) (totalCost : α)
  | refined (course : Refinement α)

namespace Solution

variable {α : Type}

def method : Solution α → Method
  | initial rule _ _ => .initial rule
  | refined _ => .refined

def allocations : Solution α → List (Allocation α)
  | initial _ allocations _ => allocations
  | refined course => course.allocations

def totalCost : Solution α → α
  | initial _ _ totalCost => totalCost
  | refined course => course.totalCost

variable [Scalar α]

/-- The solution in one line. -/
def summary (solution : Solution α) : String :=
  let course :=
    match solution with
    | initial _ _ _ => ""
    | refined course =>
        ", optimal=" ++ (if course.optimal then "True" else "False") ++ ", iters=" ++
          toString course.iterations.length
  "TransportSolution(method=" ++ solution.method.key ++ ", cells=" ++
    toString solution.allocations.length ++ ", cost=" ++
    Scalar.text solution.totalCost ++ course ++ ")"

end Solution

/-- How many pivots a refinement may take unless it is told otherwise. -/
def defaultLimit : Int := 100

/-- One billionth. -/
def toleranceBound : Float :=
  Double.ofDecimal false 1 (-9)

def defaultTolerance : Number :=
  .double toleranceBound

/-- Solves a problem by a method.  Limit and tolerance matter to the refinement
only. -/
def solveBy (method : Method) (problem : Problem α) (limit : Except Fault Int)
    (tolerance : Except Fault α) : Journal (Solution α) := do
  match method with
  | .refined => return .refined (← refine problem none limit tolerance)
  | .initial rule =>
      let allocations ← rule.plan problem
      let total ← totalCost problem.cost allocations
      return .initial rule allocations total

/-- Reads a problem and solves it by the method that is named. -/
def solve (method cost supply demand : Value) (limit : Except Fault Int)
    (tolerance : Except Fault Number) : Journal (Solution Number) := do
  let method ← Method.ofValue method
  let problem ← validate cost supply demand
  Journal.note .transportSolver .info
    ("Solving " ++ toString problem.rows ++ "x" ++ toString problem.cols ++
      " transportation problem with " ++ method.key)
  solveBy method problem limit tolerance

end OptimalPlans.Transport
