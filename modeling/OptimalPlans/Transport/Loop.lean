import OptimalPlans.Transport.Plan
import OptimalPlans.Transport.Trail

/-!
# Loops

A cell that enters a basis closes a loop with the trail from its row to its
column.  Along the loop cells gain and lose in turn, so that shifting an amount
around it keeps every row sum and every column sum.
-/

namespace OptimalPlans.Transport

inductive Sign where
  | plus
  | minus
deriving DecidableEq, Repr

def Sign.flip : Sign → Sign
  | plus => minus
  | minus => plus

def Sign.name : Sign → String
  | plus => "plus"
  | minus => "minus"

structure LoopCell where
  cell : Cell
  sign : Sign
deriving DecidableEq, Repr

/-- The cells with alternating signs. -/
def alternate : Sign → List Cell → List LoopCell
  | _, [] => []
  | sign, cell :: rest => ⟨cell, sign⟩ :: alternate sign.flip rest

/-- The loop that an entering cell closes with the cells of a basis. -/
def loopThrough (basis : List Cell) (entering : Cell) : Except Fault (List LoopCell) :=
  match shortestTrail basis (.row entering.row) (.col entering.col) with
  | some cells => .ok (⟨entering, .plus⟩ :: alternate .minus cells)
  | none => .error (.unspannedCell entering.text)

variable {α : Type} [Scalar α]

/-- The smallest amount on the losing cells of a loop and the first cell that holds
it.  A loop without a losing cell shifts nothing. -/
def bottleneck (amounts : Amounts α) (loop : List LoopCell) :
    Except Fault (α × Option Cell) := do
  let best ← loop.foldlM (fun (best : Option (α × Cell)) step => do
    match step.sign with
    | .plus => return best
    | .minus =>
        let amount := amounts.getOrZero step.cell
        let wins ←
          match best with
          | none => Scalar.bounded amount
          | some (least, _) => Scalar.less amount least
        return if wins then some (amount, step.cell) else best) none
  match best with
  | some (theta, leaving) => return (theta, some leaving)
  | none => return (Scalar.ofInt 0, none)

/-- A basis together with the amounts of its cells. -/
structure BasicPlan (α : Type) where
  basis : List Cell
  amounts : Amounts α

/-- Shifts an amount around the cells of a loop.  A losing cell has to hold an
amount. -/
def shift (theta : α) (amounts : Amounts α) (step : LoopCell) :
    Except Fault (Amounts α) := do
  match step.sign with
  | .plus =>
      let total ← Scalar.add (amounts.getOrZero step.cell) theta
      return amounts.put step.cell total
  | .minus =>
      match amounts.get? step.cell with
      | some held => return amounts.put step.cell (← Scalar.sub held theta)
      | none => throw (.absentKey step.cell.text)

/-- Shifts an amount around a loop; the entering cell, which is the first of the
loop, takes the place of the leaving one. -/
def BasicPlan.shiftAround (plan : BasicPlan α) (loop : List LoopCell) (theta : α)
    (leaving : Option Cell) : Except Fault (BasicPlan α) := do
  let amounts ← loop.foldlM (shift theta) plan.amounts
  match loop with
  | [] => throw .indexOutOfRange
  | entering :: _ =>
      let basis :=
        if plan.basis.contains entering.cell then plan.basis
        else plan.basis ++ [entering.cell]
      match leaving with
      | none => return { basis, amounts }
      | some cell =>
          return { basis := basis.filter (· ≠ cell), amounts := amounts.erase cell }

end OptimalPlans.Transport
