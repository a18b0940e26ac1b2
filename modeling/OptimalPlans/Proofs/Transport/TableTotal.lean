import OptimalPlans.Proofs.Transport.Shipment

/-!
# Totals over a table

Row sums, column sums and totals of what the cells of a table ship.  The sum over a list
of allocations is a total over the table, and so is the cost of a plan.
-/

namespace OptimalPlans.Transport

section Totals

variable {β : Type} [AddCommMonoid β]

/-- The sum over a row of a table. -/
def rowTotal (cols : Nat) (amount : Cell → β) (row : Nat) : β :=
  ∑ col ∈ Finset.range cols, amount ⟨row, col⟩

/-- The sum over a column of a table. -/
def colTotal (rows : Nat) (amount : Cell → β) (col : Nat) : β :=
  ∑ row ∈ Finset.range rows, amount ⟨row, col⟩

/-- The sum over a line of a table. -/
def lineTotal (rows cols : Nat) (amount : Cell → β) : Line → β
  | .row row => rowTotal cols amount row
  | .col col => colTotal rows amount col

/-- The sum over a table. -/
def tableTotal (rows cols : Nat) (amount : Cell → β) : β :=
  ∑ row ∈ Finset.range rows, rowTotal cols amount row

variable {rows cols : Nat}

theorem tableTotal_eq_sum_colTotal (amount : Cell → β) :
    tableTotal rows cols amount = ∑ col ∈ Finset.range cols, colTotal rows amount col :=
  Finset.sum_comm

theorem lineTotal_congr {first second : Cell → β}
    (equal : ∀ cell : Cell, cell.InTable rows cols → first cell = second cell)
    {line : Line} (inTable : line.InTable rows cols) :
    lineTotal rows cols first line = lineTotal rows cols second line := by
  cases line with
  | row index =>
      simp only [lineTotal, rowTotal]
      exact Finset.sum_congr rfl fun _ member =>
        equal _ ⟨inTable, Finset.mem_range.mp member⟩
  | col index =>
      simp only [lineTotal, colTotal]
      exact Finset.sum_congr rfl fun _ member =>
        equal _ ⟨Finset.mem_range.mp member, inTable⟩

theorem tableTotal_congr {first second : Cell → β}
    (equal : ∀ cell : Cell, cell.InTable rows cols → first cell = second cell) :
    tableTotal rows cols first = tableTotal rows cols second :=
  Finset.sum_congr rfl fun row member =>
    lineTotal_congr equal (show (Line.row row).InTable rows cols from
      Finset.mem_range.mp member)

theorem lineTotal_add (first second : Cell → β) (line : Line) :
    lineTotal rows cols (fun cell => first cell + second cell) line =
      lineTotal rows cols first line + lineTotal rows cols second line := by
  cases line <;> simp only [lineTotal, rowTotal, colTotal, Finset.sum_add_distrib]

theorem tableTotal_add (first second : Cell → β) :
    tableTotal rows cols (fun cell => first cell + second cell) =
      tableTotal rows cols first + tableTotal rows cols second := by
  simp only [tableTotal, rowTotal, Finset.sum_add_distrib]

/-- A line of which one cell ships. -/
theorem lineTotal_single {cell : Cell} (inTable : cell.InTable rows cols)
    (amount : Cell → β) (line : Line) :
    lineTotal rows cols (fun other => if cell = other then amount other else 0) line =
      if line.touches cell then amount cell else 0 := by
  obtain ⟨cellRow, cellCol⟩ := cell
  cases line with
  | row index =>
      by_cases same : index = cellRow
      · subst same
        simpa [lineTotal, rowTotal, Line.touches] using
          fun absent => absurd inTable.2 (not_lt.mpr absent)
      · simp [lineTotal, rowTotal, Line.touches, same, Ne.symm same]
  | col index =>
      by_cases same : index = cellCol
      · subst same
        simpa [lineTotal, colTotal, Line.touches] using
          fun absent => absurd inTable.1 (not_lt.mpr absent)
      · simp [lineTotal, colTotal, Line.touches, same, Ne.symm same]

theorem tableTotal_single {cell : Cell} (inTable : cell.InTable rows cols)
    (amount : Cell → β) :
    tableTotal rows cols (fun other => if cell = other then amount other else 0) =
      amount cell := by
  have rowwise : ∀ row,
      rowTotal cols (fun other => if cell = other then amount other else 0) row =
        if row = cell.row then amount cell else 0 := by
    intro row
    simpa [lineTotal, Line.touches] using lineTotal_single inTable amount (.row row)
  simp only [tableTotal, rowwise]
  simpa using fun absent => absurd inTable.1 (not_lt.mpr absent)

end Totals

section Products

variable {β : Type} [CommRing β] {rows cols : Nat}

theorem lineTotal_mul (factor : β) (amount : Cell → β) (line : Line) :
    lineTotal rows cols (fun cell => factor * amount cell) line =
      factor * lineTotal rows cols amount line := by
  cases line <;> simp only [lineTotal, rowTotal, colTotal, Finset.mul_sum]

theorem tableTotal_mul (factor : β) (amount : Cell → β) :
    tableTotal rows cols (fun cell => factor * amount cell) =
      factor * tableTotal rows cols amount := by
  simp only [tableTotal, rowTotal, Finset.mul_sum]

theorem tableTotal_rowPrice (price : Nat → β) (amount : Cell → β) :
    tableTotal rows cols (fun cell => price cell.row * amount cell) =
      ∑ row ∈ Finset.range rows, price row * rowTotal cols amount row := by
  simp only [tableTotal, rowTotal, Finset.mul_sum]

theorem tableTotal_colPrice (price : Nat → β) (amount : Cell → β) :
    tableTotal rows cols (fun cell => price cell.col * amount cell) =
      ∑ col ∈ Finset.range cols, price col * colTotal rows amount col := by
  rw [tableTotal_eq_sum_colTotal]
  simp only [colTotal, Finset.mul_sum]

end Products

/-! ## Totals of allocations -/

section Allocations

variable {rows cols : Nat} {allocations : List (Allocation Int)}

/-- A sum over allocations of a value that is additive in the amount is a total over the
table. -/
theorem sum_valued {β : Type} [AddCommMonoid β] (value : Cell → Int →+ β)
    (inTable : ∀ allocation ∈ allocations, allocation.cell.InTable rows cols) :
    (allocations.map fun allocation => value allocation.cell allocation.amount).sum =
      tableTotal rows cols fun cell => value cell (shipped allocations cell) := by
  induction allocations with
  | nil => simp [shipped_nil, tableTotal, rowTotal]
  | cons allocation rest induction =>
      have later := induction fun other member => inTable other (by simp [member])
      have first := tableTotal_single (inTable allocation (by simp)) fun cell =>
        value cell allocation.amount
      rw [List.map_cons, List.sum_cons, later, ← first, ← tableTotal_add]
      apply tableTotal_congr
      intro cell _
      rw [shipped_cons, map_add]
      split <;> simp

/-- A sum over allocations, weighted by cell, is a total over the table. -/
theorem sum_weighted (weight : Cell → Int)
    (inTable : ∀ allocation ∈ allocations, allocation.cell.InTable rows cols) :
    (allocations.map fun allocation => weight allocation.cell * allocation.amount).sum =
      tableTotal rows cols fun cell => weight cell * shipped allocations cell :=
  sum_valued (fun cell => AddMonoidHom.mulLeft (weight cell)) inTable

theorem totalCost_eq_sum {cost : Table Int}
    (entries : ∀ allocation ∈ allocations,
      cost.entry allocation.cell = .ok (cost.price allocation.cell)) :
    totalCost cost allocations = .ok (allocations.map fun allocation =>
      cost.price allocation.cell * allocation.amount).sum := by
  have folded : totalCost cost allocations = .ok (allocations.foldl (fun total allocation =>
      total + cost.price allocation.cell * allocation.amount) 0) := by
    unfold totalCost
    refine foldlM_eq_ok _ fun allocation member total => ?_
    rw [entries allocation member, ok_bind, mul_comm]
    rfl
  rw [folded, List.sum_eq_foldl, List.foldl_map]

/-- The cost of a plan is the total of price times amount. -/
theorem totalCost_eq_ok {cost : Table Int} (shaped : cost.Shaped rows cols)
    (inTable : ∀ allocation ∈ allocations, allocation.cell.InTable rows cols) :
    totalCost cost allocations =
      .ok (tableTotal rows cols fun cell => cost.price cell * shipped allocations cell) := by
  rw [← sum_weighted cost.price inTable]
  exact totalCost_eq_sum fun allocation member =>
    shaped.entry_eq_ok (inTable allocation member)

end Allocations

end OptimalPlans.Transport
