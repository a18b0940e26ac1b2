import OptimalPlans.Scalar

/-!
# Cells, allocations and tables

A transportation table has a row for each supplier and a column for each
customer.  A cell ships an amount from its row to its column; a plan is a list of
such allocations.
-/

namespace OptimalPlans.Transport

structure Cell where
  row : Nat
  col : Nat
deriving DecidableEq, Repr

namespace Cell

/-- The row-major order of cells. -/
def le (left right : Cell) : Bool :=
  left.row < right.row || (left.row == right.row && left.col ≤ right.col)

/-- Cells in row-major order. -/
def sort (cells : List Cell) : List Cell :=
  cells.mergeSort le

/-- All cells of a table, in row-major order. -/
def all (rows cols : Nat) : List Cell :=
  (List.range rows).flatMap fun row => (List.range cols).map fun col => ⟨row, col⟩

def text (cell : Cell) : String :=
  "(" ++ toString cell.row ++ ", " ++ toString cell.col ++ ")"

end Cell

structure Allocation (α : Type) where
  cell : Cell
  amount : α
deriving DecidableEq, Repr

/-- A table of costs, row by row. -/
abbrev Table (α : Type) := List (List α)

variable {α : Type}

/-- The entry at a place of a list that has to be there. -/
def entryAt (values : List α) (index : Nat) : Except Fault α :=
  match values[index]? with
  | some value => .ok value
  | none => .error .indexOutOfRange

def Table.entry (table : Table α) (cell : Cell) : Except Fault α := do
  let row ← entryAt table cell.row
  entryAt row cell.col

/-- A transportation problem: unit costs, and the quantities of the rows and of
the columns. -/
structure Problem (α : Type) where
  cost : Table α
  supply : List α
  demand : List α

def Problem.rows (problem : Problem α) : Nat :=
  problem.supply.length

def Problem.cols (problem : Problem α) : Nat :=
  problem.demand.length

end OptimalPlans.Transport
