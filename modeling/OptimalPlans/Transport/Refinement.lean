import OptimalPlans.Journal
import OptimalPlans.Transport.Basis
import OptimalPlans.Transport.Loop
import OptimalPlans.Transport.Penalty
import OptimalPlans.Transport.Potential

/-!
# Refinement of plans

A basic plan is improved cell by cell.  Each step prices the basis, lets the cell
with the most negative reduced cost enter, and shifts as much as possible around
the loop that the cell closes.  The plan is optimal when no cell is left to enter.
Every step is recorded as it was before its pivot.
-/

namespace OptimalPlans.Transport

/-- How a plan moves on: a cell enters, an amount is shifted around its loop, and
a cell leaves. -/
structure Pivot (α : Type) where
  entering : Cell
  loop : List LoopCell
  theta : α
  leaving : Option Cell

/-- A plan with its prices, and the pivot that follows unless it is optimal. -/
structure Iteration (α : Type) where
  step : Nat
  allocations : List (Allocation α)
  potentials : Potentials α
  reduced : Table (Option α)
  totalCost : α
  pivot : Option (Pivot α)

/-- The course of a refinement and the plan it ends with. -/
structure Refinement (α : Type) where
  iterations : List (Iteration α)
  optimal : Bool
  allocations : List (Allocation α)
  totalCost : α
  alternatives : List Cell

variable {α : Type} [Scalar α]

/-- A basic plan for a list of allocations: their cells, completed to a spanning
tree.  The added cells ship nothing. -/
def startingPlan (problem : Problem α) (allocations : List (Allocation α)) :
    Journal (BasicPlan α) := do
  let amounts ← Amounts.merge allocations
  let given ← acyclic (Cell.sort amounts.cells)
  let added ← completion problem.cost given problem.rows problem.cols
  Journal.noteAll .basis .debug
    (added.map fun cell => "Degenerate basis completed with zero cell " ++ cell.text)
  return { basis := given ++ added, amounts := added.foldl Amounts.ensure amounts }

/-- The cells outside the basis that could enter without changing the cost. -/
def alternatives (problem : Problem α) (basis : List Cell)
    (reduced : Table (Option α)) (tolerance : α) : Except Fault (List Cell) :=
  Scalar.filterBy (fun cell => do
    if basis.contains cell then return false
    else
      match ← reduced.entry cell with
      | none => return false
      | some value => Scalar.lessEq (← Scalar.abs value) tolerance)
    (Cell.all problem.rows problem.cols)

/-- The pivot that lets a cell enter. -/
def pivotFor (plan : BasicPlan α) (entering : Cell) : Except Fault (Pivot α) := do
  let loop ← loopThrough plan.basis entering
  let (theta, leaving) ← bottleneck plan.amounts loop
  return { entering, loop, theta, leaving }

def BasicPlan.pivot (plan : BasicPlan α) (pivot : Pivot α) :
    Except Fault (BasicPlan α) :=
  plan.shiftAround pivot.loop pivot.theta pivot.leaving

def pivotNote (step : Nat) (reduced : Option α) (pivot : Pivot α) : String :=
  "MODI step " ++ toString step ++ ": enter " ++ pivot.entering.text ++
    " (reduced cost " ++ (reduced.map Scalar.text).getD "None" ++ "), leave " ++
    (pivot.leaving.map Cell.text).getD "None" ++ ", theta=" ++ Scalar.text pivot.theta

/-- At most `budget` further pivots, starting with the given step. -/
def refineFrom (problem : Problem α) (limit : Int) (tolerance : Except Fault α) :
    Nat → Nat → BasicPlan α → Journal (Refinement α)
  | 0, _, plan => do
      let final ← plan.amounts.positive
      Journal.note .refinement .warning
        ("MODI stopped after " ++ toString limit ++
          " iterations without proving optimality")
      let total ← totalCost problem.cost final
      return { iterations := [], optimal := false, allocations := final,
               totalCost := total, alternatives := [] }
  | budget + 1, step, plan => do
      let potentials ←
        Potentials.ofBasis problem.cost plan.basis problem.rows problem.cols
      let reduced ← potentials.reducedCosts problem.cost
      let tolerated ← tolerance
      let entering ← enteringCell reduced plan.basis tolerated
      let current ← plan.amounts.positive
      let total ← totalCost problem.cost current
      match entering with
      | none =>
          let ties ← alternatives problem plan.basis reduced tolerated
          Journal.note .refinement .info
            ("MODI optimal after " ++ toString step ++ " pivot(s), cost=" ++
              Scalar.text total)
          return { iterations := [⟨step, current, potentials, reduced, total, none⟩],
                   optimal := true, allocations := current, totalCost := total,
                   alternatives := ties }
      | some cell =>
          let pivot ← pivotFor plan cell
          let price ← reduced.entry cell
          Journal.note .refinement .debug (pivotNote step price pivot)
          let next ← plan.pivot pivot
          let later ← refineFrom problem limit tolerance budget (step + 1) next
          return { later with
            iterations :=
              ⟨step, current, potentials, reduced, total, some pivot⟩ ::
                later.iterations }

/-- The penalty rule with a note for every allocation. -/
def notedPenaltyRule (problem : Problem α) : Journal (List (Allocation α)) := do
  let allocations ← penaltyRule problem
  Journal.noteAll .penaltyRule .debug (allocations.map fun allocation =>
    "VAM: cell " ++ allocation.cell.text ++ " <- " ++ Scalar.text allocation.amount)
  return allocations

/-- Improves a plan, by default the one of the penalty rule, by at most `limit`
pivots.  Reduced costs above minus the tolerance count as non-negative. -/
def refine (problem : Problem α) (initial : Option (List (Allocation α)))
    (limit : Except Fault Int) (tolerance : Except Fault α) :
    Journal (Refinement α) := do
  let allocations ←
    match initial with
    | some allocations => pure allocations
    | none => notedPenaltyRule problem
  let plan ← startingPlan problem allocations
  let limit ← limit
  refineFrom problem limit tolerance limit.toNat 0 plan

end OptimalPlans.Transport
