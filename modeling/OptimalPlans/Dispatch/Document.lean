import OptimalPlans.Dispatch.Kind

/-!
# Answers as documents

What an entry of the dispatch table answers, and the document that describes each
answer.  Fields are written in the order given here.
-/

namespace OptimalPlans.Dispatch

inductive Answer where
  | prompt (kind : Kind)
  | notice (text : String)
  | unknownOperation
  | transport (solution : Transport.Solution Number)
  | assignment (result : Assignment.Result Number)
  | tooManyVariables
  | infeasible
  | program (solution : Plane.Solution Number) (lines : List Plane.SampledLine)
  | network (analysis : Precedence.Analysis)

namespace Document

def natural (n : Nat) : Value :=
  .integer n

def optional (value : Option Value) : Value :=
  value.getD .null

def prompt (kind : Kind) : Value :=
  .record [
    ("prompt", .text ("Choose a method to solve the " ++ kind.title ++ ":")),
    ("methods", .list (kind.methods.map fun method =>
      .record [("key", .text method.1), ("label", .text method.2)]))]

section Transport

open OptimalPlans.Transport

variable {α : Type} (write : α → Value)

def cell (cell : Cell) : Value :=
  .record [("row", natural cell.row), ("col", natural cell.col)]

def allocation (allocation : Allocation α) : Value :=
  .record [("row", natural allocation.cell.row), ("col", natural allocation.cell.col),
    ("amount", write allocation.amount)]

def allocations (allocations : List (Allocation α)) : Value :=
  .list (allocations.map (allocation write))

def loopCell (step : LoopCell) : Value :=
  .record [("row", natural step.cell.row), ("col", natural step.cell.col),
    ("type", .text step.sign.name)]

def prices (prices : List (Option α)) : Value :=
  .list (prices.map fun price => optional (price.map write))

def iteration (iteration : Iteration α) : Value :=
  .record [
    ("step", natural iteration.step),
    ("allocation", allocations write iteration.allocations),
    ("u", prices write iteration.potentials.rows),
    ("v", prices write iteration.potentials.cols),
    ("reducedCosts", .list (iteration.reduced.map (prices write))),
    ("enteringCell", optional (iteration.pivot.map fun pivot => cell pivot.entering)),
    ("loop", .list (match iteration.pivot with
      | none => []
      | some pivot => pivot.loop.map loopCell)),
    ("theta", optional (iteration.pivot.map fun pivot => write pivot.theta)),
    ("totalCost", write iteration.totalCost)]

/-- The fields of a solution, its scalars written by `write`. -/
def transport (solution : Solution α) : Fields :=
  [("method", .text solution.method.key),
    ("allocation", allocations write solution.allocations),
    ("totalCost", write solution.totalCost)] ++
  match solution with
  | .initial _ _ _ => []
  | .refined course => [
      ("iterations", .list (course.iterations.map (iteration write))),
      ("optimal", .truth course.optimal),
      ("alternativeOptima", .list (course.alternatives.map cell))]

end Transport

def assignment (result : Assignment.Result Number) : Fields := [
  ("assignment", .list (result.tasks.map fun task =>
    match task with
    | some task => natural task
    | none => .integer (-1))),
  ("totalCost", .number result.totalCost),
  ("isPerfect", .truth result.isPerfect)]

section Plane

open OptimalPlans.Plane

def position (point : Point Number) : Value :=
  .list [.number point.x, .number point.y]

def drawn (x y : Value) : Value :=
  .record [("x", x), ("y", y)]

def evaluated (vertex : Evaluated Number) : Value :=
  .record [("point", position vertex.point), ("value", .number vertex.value)]

def sampledLine (line : SampledLine) : Value :=
  .record [
    ("constraint", .text line.label),
    ("points", .list (line.points.map fun point =>
      drawn (.double point.1) (.double point.2)))]

def program (solution : Solution Number) (lines : List SampledLine) : Fields := [
  ("method", .text "Graphical Method"),
  ("feasiblePoints", .list (solution.vertices.map evaluated)),
  ("bestSolution", evaluated solution.best),
  ("objectiveType", .text (if solution.maximize then "Maximization" else "Minimization")),
  ("plotData", .record [
    ("constraintLines", .list (lines.map sampledLine)),
    ("feasibleRegion", .list (solution.region.map fun point =>
      drawn (.number point.x) (.number point.y))),
    ("optimalPoint", position solution.best.point)])]

def tooManyVariables : String :=
  "Graphical method supports only 2 variables. Please use Simplex for >2 variables."

def infeasible : String := "No feasible region found."

end Plane

section Precedence

open OptimalPlans.Precedence

def names (names : List String) : Value :=
  .list (names.map .text)

def node (node : Node Int) : Value :=
  .record [("id", .text node.name), ("x", .integer node.x), ("y", .integer node.y)]

def edge (edge : String × String) : Value :=
  .record [("from", .text edge.1), ("to", .text edge.2)]

def network (analysis : Analysis) : Fields := [
  ("isCyclic", .truth analysis.schedule.isNone),
  ("adjacencyList", .record (analysis.graph.map fun entry => (entry.1, names entry.2))),
  ("topologicalOrder",
    optional (analysis.schedule.map fun schedule => names schedule.order)),
  ("layers", .record (match analysis.schedule with
    | none => []
    | some schedule => schedule.layers.map fun entry => (entry.1, natural entry.2))),
  ("message", .text analysis.message),
  ("visualNodes", .list (match analysis.schedule with
    | none => []
    | some schedule => schedule.nodes.map node)),
  ("visualEdges", .list (analysis.graph.edges.map edge))]

end Precedence

end Document

/-- The document that describes an answer. -/
def Answer.document : Answer → Value
  | prompt kind => Document.prompt kind
  | notice text => .record [("message", .text text)]
  | unknownOperation => .record [("error", .text "Operation not found")]
  | transport solution => .record (Document.transport .number solution)
  | assignment result => .record (Document.assignment result)
  | tooManyVariables => .record [("error", .text Document.tooManyVariables)]
  | infeasible => .record [("error", .text Document.infeasible)]
  | program solution lines => .record (Document.program solution lines)
  | network analysis => .record (Document.network analysis)

/-- Whether an answer says that something went wrong. -/
def Answer.isFailure : Answer → Bool
  | notice _ | tooManyVariables | infeasible => true
  | _ => false

end OptimalPlans.Dispatch
