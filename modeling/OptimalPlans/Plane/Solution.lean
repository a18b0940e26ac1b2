import OptimalPlans.Journal
import OptimalPlans.Plane.Hull
import OptimalPlans.Plane.Sample

/-!
# Linear programs in the plane

A program with at most two variables is solved by its vertices: every intersection
of two boundary lines, the axes included, that satisfies all constraints.  The best
vertex is the first with the best value of the objective.
-/

namespace OptimalPlans.Plane

structure Program (α : Type) where
  unknowns : Number
  objective : List α
  maximize : Bool
  constraints : List (Constraint α)

structure Evaluated (α : Type) where
  point : Point α
  value : α

structure Solution (α : Type) where
  vertices : List (Evaluated α)
  best : Evaluated α
  maximize : Bool
  constraints : List (Constraint α)
  region : List (Point α)

inductive Outcome (α : Type) where
  | tooManyVariables
  | infeasible
  | solved (solution : Solution α)

/-- One billionth. -/
def defaultTolerance : Number :=
  .double (Double.ofDecimal false 1 (-9))

/-- Every pair of two places of a list, in order. -/
def pairs {β : Type} : List β → List (β × β)
  | [] => []
  | value :: rest => rest.map (fun other => (value, other)) ++ pairs rest

variable {α : Type} [Coordinate α]

/-- The intersections of all pairs of boundary lines that are not parallel. -/
def intersections (constraints : List (Constraint α)) (tolerance : α) :
    Except Fault (List (Point α)) := do
  let found ← (pairs constraints).mapM fun pair => intersection pair.1 pair.2 tolerance
  return found.filterMap id

/-- The distinct points among those that satisfy all constraints. -/
def feasibleVertices (constraints : List (Constraint α)) (tolerance : α)
    (points : List (Point α)) : Except Fault (List (Point α)) := do
  let feasible ← Scalar.filterBy (isFeasible constraints tolerance) points
  distinct tolerance feasible

def evaluate (objective : List α) (point : Point α) : Except Fault (Evaluated α) := do
  let c := (objective[0]?).getD (Coordinate.whole 0)
  let d := (objective[1]?).getD (Coordinate.whole 0)
  let value ← Scalar.add (← Scalar.mul c point.x) (← Scalar.mul d point.y)
  return { point, value }

/-- The first of the vertices with the best value. -/
def best (maximize : Bool) (first : Evaluated α) (rest : List (Evaluated α)) :
    Except Fault (Evaluated α) :=
  Scalar.pick (fun candidate best =>
    if maximize then Scalar.greater candidate.value best.value
    else Scalar.less candidate.value best.value) first rest

def solve (program : Program α) (tolerance : α) : Journal (Outcome α) := do
  if (Number.integer 2).less program.unknowns then
    return .tooManyVariables
  else
    let constraints := program.constraints ++ nonNegativity
    let points ← intersections constraints tolerance
    let feasible ← feasibleVertices constraints tolerance points
    Journal.note .plane .debug
      (toString points.length ++ " intersections, " ++ toString feasible.length ++
        " feasible vertices")
    let vertices ← (feasible.mapM (evaluate program.objective) : Except Fault _)
    match vertices with
    | [] =>
        Journal.note .plane .warning "Graphical method: no feasible region"
        return .infeasible
    | first :: rest =>
        let best ← best program.maximize first rest
        let region ← convexHull feasible
        Journal.note .plane .info
          ("Graphical method: best point " ++ best.point.text ++ ", value=" ++
            Scalar.text best.value)
        return .solved { vertices, best, maximize := program.maximize, constraints, region }

/-- The boundary lines of a solved program, sampled for drawing. -/
def Solution.lines (solution : Solution Number) : Except Fault (List SampledLine) :=
  solution.constraints.mapM fun constraint =>
    constraint.sample defaultLow defaultHigh defaultStep

end OptimalPlans.Plane
