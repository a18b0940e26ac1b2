import OptimalPlans.Transport.Basic

/-!
# Potentials and reduced costs

Every basic cell prices its row and its column: its cost is the sum of the two
potentials.  Starting from row zero at price zero, the basic cells are swept until
no further potential can be resolved.  The reduced cost of a cell is what its cost
leaves after both potentials are paid.
-/

namespace OptimalPlans.Transport

/-- The prices of the rows and of the columns, as far as they are resolved. -/
structure Potentials (α : Type) where
  rows : List (Option α)
  cols : List (Option α)

namespace Potentials

variable {α : Type}

/-- The number of prices that are not resolved. -/
def unresolved (potentials : Potentials α) : Nat :=
  potentials.rows.countP (·.isNone) + potentials.cols.countP (·.isNone)

def isResolved (potentials : Potentials α) : Bool :=
  potentials.rows.all (·.isSome) && potentials.cols.all (·.isSome)

variable [Scalar α]

/-- Resolves one line of a cell from the other. -/
def resolve (cost : Table α) (potentials : Potentials α) (cell : Cell) :
    Except Fault (Potentials α) := do
  let row ← entryAt potentials.rows cell.row
  let col ← entryAt potentials.cols cell.col
  match row, col with
  | some u, none =>
      let price ← cost.entry cell
      let v ← Scalar.sub price u
      return { potentials with cols := potentials.cols.set cell.col (some v) }
  | none, some v =>
      let price ← cost.entry cell
      let u ← Scalar.sub price v
      return { potentials with rows := potentials.rows.set cell.row (some u) }
  | _, _ => return potentials

def sweep (cost : Table α) (cells : List Cell) (potentials : Potentials α) :
    Except Fault (Potentials α) :=
  cells.foldlM (resolve cost) potentials

/-- Sweeps as long as a sweep resolves something. -/
def settle (cost : Table α) (cells : List Cell) (potentials : Potentials α) :
    Except Fault (Potentials α) := do
  let next ← potentials.sweep cost cells
  if next.unresolved < potentials.unresolved then
    settle cost cells next
  else
    return next
termination_by potentials.unresolved

/-- The potentials of a set of cells; the table needs a row to start from. -/
def ofBasis (cost : Table α) (basis : List Cell) (rows cols : Nat) :
    Except Fault (Potentials α) :=
  match rows with
  | 0 => .error .assignmentOutOfRange
  | later + 1 =>
      settle cost (Cell.sort basis)
        { rows := some (Scalar.ofInt 0) :: List.replicate later none
          cols := List.replicate cols none }

/-- The reduced cost of one cell, given the price of its row. -/
def reducedCost (potentials : Potentials α) (row : Option α) (col : Nat) (price : α) :
    Except Fault (Option α) := do
  match row with
  | none => return none
  | some u =>
      match ← entryAt potentials.cols col with
      | none => return none
      | some v => return some (← Scalar.sub (← Scalar.sub price u) v)

/-- The reduced costs of a table; unresolved where a potential is. -/
def reducedCosts (potentials : Potentials α) (cost : Table α) :
    Except Fault (Table (Option α)) :=
  cost.zipIdx.mapM fun (prices, row) => do
    let u ← entryAt potentials.rows row
    prices.zipIdx.mapM fun (price, col) => potentials.reducedCost u col price

end Potentials

variable {α : Type}

/-- The entries of a table with their cells, in row-major order. -/
def Table.entries (table : Table α) : List (Cell × α) :=
  table.zipIdx.flatMap fun (values, row) =>
    values.zipIdx.map fun (value, col) => (⟨row, col⟩, value)

variable [Scalar α]

/-- The cell outside a basis whose reduced cost is furthest below minus the
tolerance, the first in row-major order among equals. -/
def enteringCell (reduced : Table (Option α)) (basis : List Cell) (tolerance : α) :
    Except Fault (Option Cell) := do
  let bound ← Scalar.neg tolerance
  let found ← reduced.entries.foldlM (fun (best : Option Cell × α) entry => do
    match entry.2 with
    | none => return best
    | some value =>
        if basis.contains entry.1 then return best
        else if ← Scalar.less value best.2 then return (some entry.1, value)
        else return best) (none, bound)
  return found.1

end OptimalPlans.Transport
