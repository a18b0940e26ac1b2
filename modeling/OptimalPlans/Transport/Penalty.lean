import OptimalPlans.Transport.LeastCost

/-!
# The penalty rule

The penalty of a line is what it costs to miss its cheapest open cell: the
difference between its two cheapest open costs, or the only one.  The line with
the largest penalty is served first, in its cheapest open cell.  Rows win over
columns, and earlier lines over later ones.
-/

namespace OptimalPlans.Transport

variable {α : Type} [Scalar α]

def penalty (costs : List α) : Except Fault α := do
  match ← Scalar.sortBy Scalar.less costs with
  | [] => throw .indexOutOfRange
  | [only] => return only
  | first :: second :: _ => Scalar.sub second first

/-- The indices of the lines that have a quantity left. -/
def openLines (quantities : List α) : List Nat :=
  (List.range quantities.length).filter (isOpen quantities)

/-- Lines with their penalties, over the open lines that cross them. -/
def penalties (price : Nat → Nat → Except Fault α) (lines crossing : List Nat) :
    Except Fault (List (Nat × α)) :=
  lines.mapM fun line => do
    let costs ← crossing.mapM (price line)
    return (line, ← penalty costs)

/-- The first of the lines with the largest penalty. -/
def largestPenalty : List (Nat × α) → Except Fault (Nat × α)
  | [] => .error .indexOutOfRange
  | first :: rest =>
      Scalar.pick (fun line best => Scalar.greater line.2 best.2) first rest

/-- The line that crosses at the lowest price. -/
def cheapestCrossing (price : Nat → Except Fault α) (first : Nat)
    (rest : List Nat) : Except Fault Nat :=
  Scalar.pick (fun line best => do
    let offered ← price line
    let lowest ← price best
    Scalar.less offered lowest) first rest

/-- The cell of the line to serve, given the open lines. -/
def penaltyCell (cost : Table α) (firstRow : Nat) (laterRows : List Nat)
    (firstCol : Nat) (laterCols : List Nat) : Except Fault Cell := do
  let rows := firstRow :: laterRows
  let cols := firstCol :: laterCols
  let rowPenalties ←
    penalties (fun row col => cost.entry ⟨row, col⟩) rows cols
  let colPenalties ←
    penalties (fun col row => cost.entry ⟨row, col⟩) cols rows
  let (row, rowPenalty) ← largestPenalty rowPenalties
  let (col, colPenalty) ← largestPenalty colPenalties
  if ← Scalar.greaterEq rowPenalty colPenalty then
    let chosen ← cheapestCrossing (fun col => cost.entry ⟨row, col⟩) firstCol laterCols
    return ⟨row, chosen⟩
  else
    let chosen ← cheapestCrossing (fun row => cost.entry ⟨row, col⟩) firstRow laterRows
    return ⟨chosen, col⟩

/-- Makes at most `budget` allocations. -/
def penaltyRuleWithin (cost : Table α) :
    Nat → List α → List α → Except Fault (List (Allocation α))
  | 0, _, _ => .ok []
  | budget + 1, supply, demand => do
      match openLines supply, openLines demand with
      | firstRow :: laterRows, firstCol :: laterCols =>
          let cell ← penaltyCell cost firstRow laterRows firstCol laterCols
          let available ← entryAt supply cell.row
          let wanted ← entryAt demand cell.col
          let amount ← Scalar.smaller available wanted
          let supply ← takeAt supply cell.row amount
          let demand ← takeAt demand cell.col amount
          let later ← penaltyRuleWithin cost budget supply demand
          return ⟨cell, amount⟩ :: later
      | _, _ => return []

/-- Every allocation closes a row or a column. -/
def penaltyRule (problem : Problem α) : Except Fault (List (Allocation α)) :=
  penaltyRuleWithin problem.cost (problem.rows + problem.cols)
    problem.supply problem.demand

end OptimalPlans.Transport
