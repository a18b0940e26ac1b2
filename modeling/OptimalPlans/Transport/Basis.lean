import OptimalPlans.Transport.Trail

/-!
# Bases

The cells of a basic plan form no loop.  `spanningBasis` extends such cells to a
spanning tree of all rows and columns: the cheapest cells come first, and a cell
is taken when its two lines are not joined yet.
-/

namespace OptimalPlans.Transport

/-- Collects cells as long as they close no loop. -/
def acyclic (cells : List Cell) : Except Fault (List Cell) :=
  cells.foldlM (fun basis cell =>
    if isJoined basis cell then .error .cyclicPlan else .ok (basis ++ [cell])) []

/-- The cells that join two lines not joined before, up to a number of them. -/
def joiningCells (basis : List Cell) : Nat → List Cell → List Cell
  | 0, _ => []
  | _, [] => []
  | missing + 1, cell :: rest =>
      if isJoined basis cell then joiningCells basis (missing + 1) rest
      else cell :: joiningCells (basis ++ [cell]) missing rest

variable {α : Type} [Scalar α]

/-- The cells outside a basis from the cheapest to the dearest, in row-major order
among equals. -/
def candidates (cost : Table α) (basis : List Cell) (rows cols : Nat) :
    Except Fault (List Cell) := do
  let outside := (Cell.all rows cols).filter fun cell => !basis.contains cell
  let priced ← outside.mapM fun cell => do return (← cost.entry cell, cell)
  let sorted ← Scalar.sortBy (fun left right => Scalar.precedes left.1 right.1) priced
  return sorted.map (·.2)

/-- The cells that complete an acyclic basis, in the order in which they join. -/
def completion (cost : Table α) (basis : List Cell) (rows cols : Nat) :
    Except Fault (List Cell) := do
  let needed := rows + cols - 1
  if basis.length < needed then
    let cells ← candidates cost basis rows cols
    return joiningCells basis (needed - basis.length) cells
  else
    return []

/-- A spanning tree that holds the given cells, which may not form a loop. -/
def spanningBasis (cost : Table α) (cells : List Cell) (rows cols : Nat) :
    Except Fault (List Cell) := do
  let basis ← acyclic (Cell.sort cells)
  let added ← completion cost basis rows cols
  return basis ++ added

end OptimalPlans.Transport
