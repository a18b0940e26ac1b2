import OptimalPlans.Assignment.Pricing

/-!
# Cheapest perfect matchings

The rows of a square matrix are inserted one by one.  For each row a search grows
over the columns: it relaxes the free columns against the row it stands on, moves
the prices until the closest free column is tight, and goes on from there until it
meets a column without a partner.  The way back to the inserted row then shifts the
partners by one.
-/

namespace OptimalPlans.Assignment

variable {κ σ : Type} {n : Nat}

abbrev Matrix (κ : Type) (n : Nat) := Vector (Vector κ n) n

/-- Prices of rows and columns, the row matched to each column, and the column
from which each column was last reached; `none` is the inserted row itself. -/
structure Matching (κ : Type) (n : Nat) where
  rowPrice : Vector κ n
  colPrice : Vector κ n
  partner : Vector (Option (Fin n)) n
  via : Vector (Option (Fin n)) n

/-- The search for one inserted row: the columns used so far and the slack of the
others. -/
structure Search (κ σ : Type) (n : Nat) where
  matching : Matching κ n
  used : Vector Bool n
  slack : Vector σ n

variable [Pricing κ σ]

def Matching.empty : Matching κ n where
  rowPrice := Vector.replicate n (Pricing.zero)
  colPrice := Vector.replicate n (Pricing.zero)
  partner := Vector.replicate n none
  via := Vector.replicate n none

/-- The gap between a cost and the prices of its row and column. -/
def Matching.gap (matching : Matching κ n) (costs : Matrix κ n) (row col : Fin n) : κ :=
  Pricing.sub (Pricing.sub costs[row][col] matching.rowPrice[row]) matching.colPrice[col]

def Search.start (matching : Matching κ n) : Search κ σ n where
  matching
  used := Vector.replicate n false
  slack := Vector.replicate n (Pricing.unreached κ)

/-- Marks a column as used; the inserted row stands on no column. -/
def Search.enter (search : Search κ σ n) (standing : Option (Fin n)) : Search κ σ n :=
  match standing with
  | none => search
  | some col => { search with used := search.used.set col true }

/-- Whether the gap to a row improves the slack of a free column. -/
def Search.improves (search : Search κ σ n) (costs : Matrix κ n) (row col : Fin n) :
    Bool :=
  !search.used[col] &&
    Pricing.closer κ (Pricing.reached (search.matching.gap costs row col))
      search.slack[col]

/-- Relaxes every free column against a row. -/
def Search.relax (search : Search κ σ n) (costs : Matrix κ n)
    (standing : Option (Fin n)) (row : Fin n) : Search κ σ n :=
  { search with
    slack := Vector.ofFn fun col =>
      if search.improves costs row col then
        Pricing.reached (search.matching.gap costs row col)
      else search.slack[col]
    matching := { search.matching with
      via := Vector.ofFn fun col =>
        if search.improves costs row col then standing
        else search.matching.via[col] } }

/-- The slack of a column as the choice sees it. -/
def Search.offer (search : Search κ σ n) (col : Fin n) : σ :=
  if search.used[col] then Pricing.unreached κ else search.slack[col]

/-- The first column with the least offer. -/
def Search.closest (search : Search κ σ n) : Option (Fin n) :=
  (List.finRange n).foldl (fun best col =>
    match best with
    | none => some col
    | some chosen =>
        if Pricing.leads κ (search.offer col) (search.offer chosen) then some col
        else best) none

/-- Whether a row is the inserted one or the partner of a used column. -/
def Search.reaches (search : Search κ σ n) (inserted row : Fin n) : Bool :=
  row == inserted ||
    (List.finRange n).any fun col =>
      search.used[col] && search.matching.partner[col] == some row

/-- Moves the prices by an amount: up for the rows reached, down for the columns
used, and with them the slack of the free columns. -/
def Search.move (search : Search κ σ n) (inserted : Fin n) (amount : κ) :
    Search κ σ n :=
  { search with
    slack := Vector.ofFn fun col =>
      if search.used[col] then search.slack[col]
      else Pricing.lower search.slack[col] amount
    matching := { search.matching with
      rowPrice := Vector.ofFn fun row =>
        if search.reaches inserted row then
          Pricing.add search.matching.rowPrice[row] amount
        else search.matching.rowPrice[row]
      colPrice := Vector.ofFn fun col =>
        if search.used[col] then Pricing.sub search.matching.colPrice[col] amount
        else search.matching.colPrice[col] } }

/-- One turn of the search from a row: the search afterwards and the column it has
chosen. -/
def Search.turn (search : Search κ σ n) (costs : Matrix κ n) (inserted : Fin n)
    (standing : Option (Fin n)) (row : Fin n) : Option (Search κ σ n × Fin n) :=
  let relaxed := (search.enter standing).relax costs standing row
  match relaxed.closest with
  | none => none
  | some col =>
      some (relaxed.move inserted (Pricing.amount (relaxed.offer col)), col)

/-- Turns until a column without a partner is chosen, at most `budget` of them. -/
def Search.run (costs : Matrix κ n) (inserted : Fin n) :
    Nat → Search κ σ n → Option (Fin n) → Fin n → Option (Matching κ n × Fin n)
  | 0, _, _, _ => none
  | budget + 1, search, standing, row =>
      match search.turn costs inserted standing row with
      | none => none
      | some (next, col) =>
          match next.matching.partner[col] with
          | none => some (next.matching, col)
          | some partner => Search.run costs inserted budget next (some col) partner

/-- Hands the partners along the way back from a column to the inserted row. -/
def Matching.augment (inserted : Fin n) :
    Nat → Matching κ n → Fin n → Matching κ n
  | 0, matching, _ => matching
  | budget + 1, matching, col =>
      match matching.via[col] with
      | none => { matching with partner := matching.partner.set col (some inserted) }
      | some previous =>
          augment inserted budget
            { matching with
              partner := matching.partner.set col matching.partner[previous] }
            previous

/-- Inserts a row.  A search visits every column at most once with exact costs; an
infinite step may spend a turn without a new column, so turns are counted double. -/
def Matching.insert (costs : Matrix κ n) (matching : Matching κ n) (inserted : Fin n) :
    Matching κ n :=
  match Search.run costs inserted (2 * n + 2) (Search.start matching) none inserted with
  | none => matching
  | some (found, col) => found.augment inserted (n + 1) col

/-- The matching after all rows are inserted. -/
def cheapestMatching (costs : Matrix κ n) : Matching κ n :=
  (List.finRange n).foldl (Matching.insert costs) Matching.empty

end OptimalPlans.Assignment
