import OptimalPlans.Transport.Basic

/-!
# Plans

Three views of a plan: the list of its allocations, the amount of every cell, and
the full table of amounts.  `Amounts` keeps its cells in the order in which they
were first entered, each cell once.
-/

namespace OptimalPlans.Transport

abbrev Amounts (α : Type) := List (Cell × α)

namespace Amounts

variable {α : Type}

def get? (amounts : Amounts α) (cell : Cell) : Option α :=
  List.lookup cell amounts

def cells (amounts : Amounts α) : List Cell :=
  amounts.map (·.1)

/-- Replaces the amount of a cell, or enters the cell at the end. -/
def put : Amounts α → Cell → α → Amounts α
  | [], cell, amount => [(cell, amount)]
  | (other, held) :: rest, cell, amount =>
      if other = cell then (cell, amount) :: rest
      else (other, held) :: put rest cell amount

def erase (amounts : Amounts α) (cell : Cell) : Amounts α :=
  amounts.filter fun entry => entry.1 ≠ cell

/-- The entries in row-major order of their cells. -/
def sort (amounts : Amounts α) : Amounts α :=
  amounts.mergeSort fun left right => left.1.le right.1

variable [Scalar α]

def getOrZero (amounts : Amounts α) (cell : Cell) : α :=
  (amounts.get? cell).getD (Scalar.ofInt 0)

/-- Enters a cell with amount zero unless it is there. -/
def ensure (amounts : Amounts α) (cell : Cell) : Amounts α :=
  match amounts.get? cell with
  | some _ => amounts
  | none => amounts.put cell (Scalar.ofInt 0)

def keepPositive (amounts : Amounts α) : Except Fault (Amounts α) :=
  Scalar.filterBy (fun entry => Scalar.isPositive entry.2) amounts

/-- The amount shipped by each cell over a list of allocations, where that is
positive. -/
def merge (allocations : List (Allocation α)) : Except Fault (Amounts α) := do
  let totals ← allocations.foldlM (fun (amounts : Amounts α) allocation => do
    let amount ← Scalar.add (amounts.getOrZero allocation.cell) allocation.amount
    return amounts.put allocation.cell amount) []
  totals.keepPositive

/-- The positive amounts as allocations in row-major order. -/
def positive (amounts : Amounts α) : Except Fault (List (Allocation α)) := do
  let kept ← (sort amounts).keepPositive
  return kept.map fun entry => ⟨entry.1, entry.2⟩

end Amounts

variable {α : Type} [Scalar α]

/-- The cost of a plan. -/
def totalCost (cost : Table α) (allocations : List (Allocation α)) :
    Except Fault α :=
  allocations.foldlM (fun total allocation => do
    let unit ← cost.entry allocation.cell
    let part ← Scalar.mul allocation.amount unit
    Scalar.add total part) (Scalar.ofInt 0)

/-- Adds an amount to an entry of a table. -/
def Table.addAt (table : Table α) (cell : Cell) (amount : α) :
    Except Fault (Table α) := do
  let row ← entryAt table cell.row
  let held ← entryAt row cell.col
  let total ← Scalar.add held amount
  return table.set cell.row (row.set cell.col total)

/-- The full table of amounts. -/
def toTable (rows cols : Nat) (allocations : List (Allocation α)) :
    Except Fault (Table α) :=
  allocations.foldlM (fun table allocation =>
      Table.addAt table allocation.cell allocation.amount)
    (List.replicate rows (List.replicate cols (Scalar.ofInt 0)))

end OptimalPlans.Transport
