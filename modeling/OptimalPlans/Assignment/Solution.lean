import OptimalPlans.Assignment.Matching
import OptimalPlans.Transport.Validation
import OptimalPlans.Value.Arithmetic

/-!
# Solving assignment problems

Agents are rows and tasks are columns.  A matrix that is not square is padded with
dummy lines of cost zero; an agent that is matched to a dummy task stays without a
task.  The total counts the given costs of real pairs only.
-/

namespace OptimalPlans.Assignment

variable {α κ σ : Type}

/-- The number of lines of the padded matrix. -/
def paddedSize (costs : List (List κ)) : Nat :=
  max costs.length (costs.headD []).length

/-- The square matrix of costs, with zeros for the dummy lines. -/
def padded [Pricing κ σ] (costs : List (List κ)) : Matrix κ (paddedSize costs) :=
  Vector.ofFn fun row => Vector.ofFn fun col =>
    ((costs[row.val]?).bind (·[col.val]?)).getD Pricing.zero

/-- The tasks of the agents and what they cost. -/
structure Result (α : Type) where
  tasks : List (Option Nat)
  totalCost : α
  isPerfect : Bool

/-- The agents that have a task, with their tasks. -/
def pairsOf (tasks : List (Option Nat)) : List (Nat × Nat) :=
  tasks.zipIdx.filterMap fun (task, agent) => task.map fun task => (agent, task)

/-- The last real task whose partner is the agent. -/
def taskOf {n : Nat} (partner : Vector (Option (Fin n)) n) (cols agent : Nat) :
    Option Nat :=
  (List.finRange n).foldl (fun found col =>
    if (partner.get col).map Fin.val == some agent && col.val < cols then some col.val
    else found) none

/-- The given costs of the pairs, agent by agent. -/
def totalOf [Scalar α] (costs : Transport.Table α) (pairs : List (Nat × Nat)) :
    Except Fault α :=
  pairs.foldlM (fun total pair => do
    let cost ← costs.entry ⟨pair.1, pair.2⟩
    Scalar.add total cost) (Scalar.ofInt 0)

/-- The tasks of the agents in a cheapest matching of the padded matrix. -/
def cheapestTasks [Pricing κ σ] (costs : List (List κ)) : List (Option Nat) :=
  let partner := (cheapestMatching (padded costs)).partner
  (List.range costs.length).map (taskOf partner (costs.headD []).length)

/-- Tasks with their total, which is perfect when every agent has one and there are
tasks enough. -/
def Result.ofTasks [Scalar α] (costs : Transport.Table α) (tasks : List (Option Nat)) :
    Except Fault (Result α) := do
  let pairs := pairsOf tasks
  let total ← totalOf costs pairs
  return { tasks, totalCost := total,
           isPerfect := pairs.length == costs.length &&
             costs.length ≤ (costs.headD []).length }

def measureAll (measure : α → Except Fault κ) (costs : Transport.Table α) :
    Except Fault (List (List κ)) :=
  costs.mapM fun row => row.mapM measure

/-- The cheapest assignment for a cost matrix with equally long rows; `measure`
turns the given costs into those the search computes with. -/
def assign [Scalar α] [Pricing κ σ] (measure : α → Except Fault κ)
    (costs : Transport.Table α) : Except Fault (Result α) := do
  let measured ← measureAll measure costs
  Result.ofTasks costs (cheapestTasks measured)

/-- Solves the assignment problem of a cost matrix after checking it against the
declared counts. -/
def solve (agents tasks cost : Value) : Journal (Result Number) := do
  let (costs, cols) ← Transport.costMatrix Transport.costMatrixName cost
  let rows := costs.length
  if !agents.same (.integer rows) || !tasks.same (.integer cols) then
    throw (.shapeMismatch rows cols agents.shown tasks.shown)
  let measured ← measureAll Number.toDouble costs
  Journal.noteAll .assignment .debug
    ((List.range (max rows cols)).map fun row =>
      "Hungarian: row " ++ toString (row + 1) ++ " inserted")
  let result ← Result.ofTasks costs (cheapestTasks measured)
  Journal.note .assignment .info
    ("Assignment " ++ toString rows ++ "x" ++ toString cols ++ ": cost=" ++
      Scalar.text result.totalCost ++ ", perfect=" ++
      (if result.isPerfect then "True" else "False"))
  return result

end OptimalPlans.Assignment
