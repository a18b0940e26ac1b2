import OptimalPlans.Transport.Basic

/-!
# Trails through a set of cells

The rows and columns of a table are the nodes of a graph, and a set of cells are
its edges.  A trail walks along cells from line to line.  `shortestTrail` finds a
shortest one between two lines, level by level: cells that touch the frontier are
used up, and the search ends when none do.
-/

namespace OptimalPlans.Transport

/-- A row or a column of the table. -/
inductive Line where
  | row (index : Nat)
  | col (index : Nat)
deriving DecidableEq, Repr

def Line.touches (line : Line) (cell : Cell) : Bool :=
  line = .row cell.row || line = .col cell.col

/-- The cells walked so far, the last one first, and the line they lead to. -/
structure Trail where
  stop : Line
  cells : List Cell
deriving DecidableEq, Repr

/-- Walks along one more cell, if the trail has reached one of its lines. -/
def Trail.extend? (trail : Trail) (cell : Cell) : Option Trail :=
  if trail.stop = .row cell.row then some ⟨.col cell.col, cell :: trail.cells⟩
  else if trail.stop = .col cell.col then some ⟨.row cell.row, cell :: trail.cells⟩
  else none

/-- The cells that touch no end of the frontier. -/
def untouched (frontier : List Trail) (cells : List Cell) : List Cell :=
  cells.filter fun cell => !frontier.any fun trail => trail.stop.touches cell

def extensions (frontier : List Trail) (cells : List Cell) : List Trail :=
  frontier.flatMap fun trail => cells.filterMap trail.extend?

def searchTrail (goal : Line) (frontier : List Trail) (unused : List Cell) :
    Option Trail :=
  match frontier.find? fun trail => trail.stop = goal with
  | some trail => some trail
  | none =>
      if (untouched frontier unused).length < unused.length then
        searchTrail goal (extensions frontier unused) (untouched frontier unused)
      else none
termination_by unused.length

/-- The cells of a shortest trail, from the first to the last. -/
def shortestTrail (cells : List Cell) (start goal : Line) : Option (List Cell) :=
  (searchTrail goal [⟨start, []⟩] cells).map fun trail => trail.cells.reverse

/-- Whether the two lines of a cell are joined by other cells already. -/
def isJoined (cells : List Cell) (cell : Cell) : Bool :=
  (shortestTrail cells (.row cell.row) (.col cell.col)).isSome

end OptimalPlans.Transport
