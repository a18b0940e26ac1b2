import OptimalPlans.Transport.Basic

/-!
# The least-cost rule

The cheapest open cell ships as much as it can, the first in row-major order
among equals, until no cell is open.  A cell is open while its row and its column
have something left.
-/

namespace OptimalPlans.Transport

variable {α : Type} [Scalar α]

/-- Whether a line still has a quantity left. -/
def isOpen (quantities : List α) (index : Nat) : Bool :=
  match quantities[index]? with
  | some quantity => !Scalar.isZero quantity
  | none => false

/-- The open cells in row-major order. -/
def openCells (supply demand : List α) : List Cell :=
  (Cell.all supply.length demand.length).filter fun cell =>
    isOpen supply cell.row && isOpen demand cell.col

/-- The better of the cheapest cell so far and one more cell. -/
def cheaper (cost : Table α) (best : Option (Cell × α)) (cell : Cell) :
    Except Fault (Option (Cell × α)) := do
  let price ← cost.entry cell
  let wins ←
    match best with
    | none => Scalar.bounded price
    | some (_, lowest) => Scalar.less price lowest
  return if wins then some (cell, price) else best

def cheapest (cost : Table α) (cells : List Cell) : Except Fault (Option Cell) := do
  let best ← cells.foldlM (cheaper cost) none
  return best.map (·.1)

/-- Takes an amount away from one place of a list. -/
def takeAt (quantities : List α) (index : Nat) (amount : α) :
    Except Fault (List α) := do
  let held ← entryAt quantities index
  let rest ← Scalar.sub held amount
  return quantities.set index rest

/-- Makes at most `budget` allocations. -/
def leastCostWithin (cost : Table α) :
    Nat → List α → List α → Except Fault (List (Allocation α))
  | 0, _, _ => .ok []
  | budget + 1, supply, demand => do
      match ← cheapest cost (openCells supply demand) with
      | none => return []
      | some cell =>
          let available ← entryAt supply cell.row
          let wanted ← entryAt demand cell.col
          let amount ← Scalar.smaller available wanted
          let supply ← takeAt supply cell.row amount
          let demand ← takeAt demand cell.col amount
          let later ← leastCostWithin cost budget supply demand
          return ⟨cell, amount⟩ :: later

/-- Every allocation uses up a row or a column, so there are no more of them than
rows and columns. -/
def leastCost (problem : Problem α) : Except Fault (List (Allocation α)) :=
  leastCostWithin problem.cost (problem.rows + problem.cols)
    problem.supply problem.demand

end OptimalPlans.Transport
