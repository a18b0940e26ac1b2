import OptimalPlans.Proofs.Transport.OptimalityCertificate
import OptimalPlans.Transport.Balance

/-!
# Dummy lines

A dummy line takes what one side of a problem has in excess, and shipping over it costs
nothing.  Leaving the dummy line out of a plan that meets every quantity gives a plan that
uses up the smaller side; putting what such a plan leaves over on the dummy line gives back
a plan that meets every quantity.  Neither changes the cost.
-/

namespace OptimalPlans.Transport

/-- A column for supply in excess. -/
def Problem.withColumn (problem : Problem Int) (quantity : Int) : Problem Int :=
  { problem with
    cost := problem.cost.map fun row => row ++ [0]
    demand := problem.demand ++ [quantity] }

/-- A row for demand in excess. -/
def Problem.withRow (problem : Problem Int) (quantity : Int) : Problem Int :=
  { problem with
    cost := problem.cost ++ [List.replicate problem.cols 0]
    supply := problem.supply ++ [quantity] }

/-- Amounts that are not negative, ship over no line more than its quantity, and use up
the quantities of the smaller side. -/
structure Exhausts (problem : Problem Int) (amount : Cell → Rat) : Prop where
  nonneg : ∀ cell : Cell, cell.InTable problem.rows problem.cols → 0 ≤ amount cell
  within : ∀ line : Line, line.InTable problem.rows problem.cols →
    lineTotal problem.rows problem.cols amount line ≤
      lineQuantity problem.supply problem.demand line
  supplied : problem.supply.sum ≤ problem.demand.sum → ∀ row < problem.rows,
    lineTotal problem.rows problem.cols amount (.row row) =
      lineQuantity problem.supply problem.demand (.row row)
  demanded : problem.demand.sum ≤ problem.supply.sum → ∀ col < problem.cols,
    lineTotal problem.rows problem.cols amount (.col col) =
      lineQuantity problem.supply problem.demand (.col col)

theorem planCost_congr {problem : Problem Int} {amount other : Cell → Rat}
    (same : ∀ cell : Cell, cell.InTable problem.rows problem.cols → amount cell = other cell) :
    planCost problem amount = planCost problem other :=
  tableTotal_congr fun cell inTable => by rw [same cell inTable]

theorem Exhausts.congr {problem : Problem Int} {amount other : Cell → Rat}
    (exhausts : Exhausts problem other)
    (same : ∀ cell : Cell, cell.InTable problem.rows problem.cols → amount cell = other cell) :
    Exhausts problem amount where
  nonneg cell inTable := (exhausts.nonneg cell inTable).trans_eq (same cell inTable).symm
  within line inTable := (lineTotal_congr same inTable).trans_le (exhausts.within line inTable)
  supplied short row bound := by
    have inTable : (Line.row row).InTable problem.rows problem.cols := bound
    rw [lineTotal_congr same inTable, exhausts.supplied short row bound]
  demanded excess col bound := by
    have inTable : (Line.col col).InTable problem.rows problem.cols := bound
    rw [lineTotal_congr same inTable, exhausts.demanded excess col bound]

/-- A problem with lines behind those of another one, over which shipping costs nothing. -/
structure Widens (problem wide : Problem Int) : Prop where
  rows_le : problem.rows ≤ wide.rows
  cols_le : problem.cols ≤ wide.cols
  price_eq : ∀ cell : Cell, cell.InTable problem.rows problem.cols →
    wide.cost.price cell = problem.cost.price cell
  free : ∀ cell : Cell, cell.InTable wide.rows wide.cols →
    ¬ cell.InTable problem.rows problem.cols → wide.cost.price cell = 0
  quantity_eq : ∀ line : Line, line.InTable problem.rows problem.cols →
    lineQuantity wide.supply wide.demand line = lineQuantity problem.supply problem.demand line

variable {problem wide : Problem Int} {amount : Cell → Rat} {quantity : Int}

/-! ## Leaving lines out -/

namespace Widens

theorem inTable (widens : Widens problem wide) {cell : Cell}
    (inTable : cell.InTable problem.rows problem.cols) : cell.InTable wide.rows wide.cols :=
  ⟨inTable.1.trans_le widens.rows_le, inTable.2.trans_le widens.cols_le⟩

/-- A plan costs the same with and without the added lines. -/
theorem planCost_eq (widens : Widens problem wide) (amount : Cell → Rat) :
    planCost wide amount = planCost problem amount := by
  have outside : ∀ cell : Cell, cell.InTable wide.rows wide.cols →
      ¬ cell.InTable problem.rows problem.cols → wide.cost.price cell * amount cell = 0 := by
    intro cell inTable added
    rw [widens.free cell inTable added, Int.cast_zero, zero_mul]
  have rowwise : ∀ row ∈ Finset.range problem.rows,
      rowTotal wide.cols (fun cell => wide.cost.price cell * amount cell) row =
        rowTotal problem.cols (fun cell => problem.cost.price cell * amount cell) row := by
    intro row rowMember
    have rowBound := Finset.mem_range.mp rowMember
    have kept := Finset.sum_subset (Finset.range_subset_range.mpr widens.cols_le)
      fun col colMember added => outside ⟨row, col⟩
        ⟨rowBound.trans_le widens.rows_le, Finset.mem_range.mp colMember⟩
        fun inTable => added (Finset.mem_range.mpr inTable.2)
    refine kept.symm.trans (Finset.sum_congr rfl fun col colMember => ?_)
    rw [widens.price_eq ⟨row, col⟩ ⟨rowBound, Finset.mem_range.mp colMember⟩]
  have kept := Finset.sum_subset (Finset.range_subset_range.mpr widens.rows_le)
    fun row rowMember added => Finset.sum_eq_zero fun col colMember => outside ⟨row, col⟩
      ⟨Finset.mem_range.mp rowMember, Finset.mem_range.mp colMember⟩
      fun inTable => added (Finset.mem_range.mpr inTable.1)
  exact kept.symm.trans (Finset.sum_congr rfl rowwise)

/-- Without the added lines a plan ships no more over a line. -/
theorem lineTotal_le (widens : Widens problem wide)
    (nonneg : ∀ cell : Cell, cell.InTable wide.rows wide.cols → 0 ≤ amount cell) {line : Line}
    (inTable : line.InTable problem.rows problem.cols) :
    lineTotal problem.rows problem.cols amount line ≤
      lineTotal wide.rows wide.cols amount line := by
  cases line with
  | row row =>
      refine Finset.sum_le_sum_of_subset_of_nonneg
        (Finset.range_subset_range.mpr widens.cols_le) fun col member _ => nonneg _ ?_
      exact ⟨lt_of_lt_of_le inTable widens.rows_le, Finset.mem_range.mp member⟩
  | col col =>
      refine Finset.sum_le_sum_of_subset_of_nonneg
        (Finset.range_subset_range.mpr widens.rows_le) fun row member _ => nonneg _ ?_
      exact ⟨Finset.mem_range.mp member, lt_of_lt_of_le inTable widens.cols_le⟩

/-- A plan that meets every quantity of the wider problem uses up the smaller side of the
other one, as long as only the larger side faces an added line. -/
theorem exhausts (widens : Widens problem wide)
    (rowsFull : problem.supply.sum ≤ problem.demand.sum → wide.cols = problem.cols)
    (colsFull : problem.demand.sum ≤ problem.supply.sum → wide.rows = problem.rows)
    (meets : Meets wide.rows wide.cols (lineQuantity wide.supply wide.demand) amount) :
    Exhausts problem amount where
  nonneg cell inTable := meets.nonneg cell (widens.inTable inTable)
  within line inTable := by
    have wideInTable : line.InTable wide.rows wide.cols := by
      cases line with
      | row row => exact lt_of_lt_of_le inTable widens.rows_le
      | col col => exact lt_of_lt_of_le inTable widens.cols_le
    rw [← widens.quantity_eq line inTable, ← meets.totals line wideInTable]
    exact widens.lineTotal_le meets.nonneg inTable
  supplied scarce row bound := by
    rw [← widens.quantity_eq (.row row) bound,
      ← meets.totals (.row row) (lt_of_lt_of_le bound widens.rows_le), rowsFull scarce]
    rfl
  demanded scarce col bound := by
    rw [← widens.quantity_eq (.col col) bound,
      ← meets.totals (.col col) (lt_of_lt_of_le bound widens.cols_le), colsFull scarce]
    rfl

end Widens

/-! ## Adding a line -/

section Added

theorem Problem.rows_withColumn : (problem.withColumn quantity).rows = problem.rows := rfl

theorem Problem.cols_withColumn : (problem.withColumn quantity).cols = problem.cols + 1 := by
  simp [Problem.withColumn, Problem.cols]

theorem Problem.rows_withRow : (problem.withRow quantity).rows = problem.rows + 1 := by
  simp [Problem.withRow, Problem.rows]

theorem Problem.cols_withRow : (problem.withRow quantity).cols = problem.cols := rfl

theorem Problem.Valid.withColumn (valid : problem.Valid) (nonneg : 0 ≤ quantity) :
    (problem.withColumn quantity).Valid where
  shaped := by
    rw [Problem.rows_withColumn, Problem.cols_withColumn]
    refine ⟨by simp [Problem.withColumn, valid.shaped.length_eq], fun row member => ?_⟩
    obtain ⟨units, unitsMember, rfl⟩ := List.mem_map.mp member
    rw [List.length_append, valid.shaped.row_length_eq units unitsMember, List.length_singleton]
  rows_pos := valid.rows_pos
  cols_pos := by
    rw [Problem.cols_withColumn]
    exact Nat.succ_pos _
  supply_nonneg := valid.supply_nonneg
  demand_nonneg held member := by
    rcases List.mem_append.mp member with old | new
    · exact valid.demand_nonneg held old
    · exact List.mem_singleton.mp new ▸ nonneg

theorem Problem.Valid.withRow (valid : problem.Valid) (nonneg : 0 ≤ quantity) :
    (problem.withRow quantity).Valid where
  shaped := by
    rw [Problem.rows_withRow, Problem.cols_withRow]
    refine ⟨by simp [Problem.withRow, valid.shaped.length_eq], fun row member => ?_⟩
    rcases List.mem_append.mp member with old | new
    · exact valid.shaped.row_length_eq row old
    · rw [List.mem_singleton.mp new, List.length_replicate]
  rows_pos := by
    rw [Problem.rows_withRow]
    exact Nat.succ_pos _
  cols_pos := valid.cols_pos
  supply_nonneg held member := by
    rcases List.mem_append.mp member with old | new
    · exact valid.supply_nonneg held old
    · exact List.mem_singleton.mp new ▸ nonneg
  demand_nonneg := valid.demand_nonneg

theorem Problem.Valid.withColumn_widens (valid : problem.Valid) :
    Widens problem (problem.withColumn quantity) where
  rows_le := le_rfl
  cols_le := by
    rw [Problem.cols_withColumn]
    exact Nat.le_succ _
  price_eq cell inTable := by
    have rowBound : cell.row < problem.cost.length := valid.shaped.length_eq ▸ inTable.1
    have colBound : cell.col < problem.cost[cell.row].length := by
      rw [valid.shaped.row_length_eq _ (List.getElem_mem rowBound)]
      exact inTable.2
    simp [Problem.withColumn, Table.price, rowBound, colBound,
      List.getElem?_append_left colBound]
  free cell inTable added := by
    have rowBound : cell.row < problem.cost.length := valid.shaped.length_eq ▸ inTable.1
    have width := valid.shaped.row_length_eq _ (List.getElem_mem rowBound)
    have last : cell.col = problem.cost[cell.row].length := by
      rw [Problem.cols_withColumn] at inTable
      rw [width]
      exact le_antisymm (Nat.lt_succ_iff.mp inTable.2) (not_lt.mp fun col => added ⟨inTable.1, col⟩)
    simp [Problem.withColumn, Table.price, rowBound, last]
  quantity_eq line inTable := by
    cases line with
    | row row => rfl
    | col col =>
        have bound : col < problem.demand.length := inTable
        simp [lineQuantity, Problem.withColumn, bound, List.getElem?_append_left bound]

theorem Problem.Valid.withRow_widens (valid : problem.Valid) :
    Widens problem (problem.withRow quantity) where
  rows_le := by
    rw [Problem.rows_withRow]
    exact Nat.le_succ _
  cols_le := le_rfl
  price_eq cell inTable := by
    have rowBound : cell.row < problem.cost.length := valid.shaped.length_eq ▸ inTable.1
    simp [Problem.withRow, Table.price, rowBound, List.getElem?_append_left rowBound]
  free cell inTable added := by
    have last : cell.row = problem.cost.length := by
      rw [Problem.rows_withRow] at inTable
      rw [valid.shaped.length_eq]
      exact le_antisymm (Nat.lt_succ_iff.mp inTable.1) (not_lt.mp fun row => added ⟨row, inTable.2⟩)
    have colBound : cell.col < problem.cols := inTable.2
    simp [Problem.withRow, Table.price, last, colBound]
  quantity_eq line inTable := by
    cases line with
    | row row =>
        have bound : row < problem.supply.length := inTable
        simp [lineQuantity, Problem.withRow, bound, List.getElem?_append_left bound]
    | col col => rfl

end Added

/-! ## Putting what is left over on the added line -/

section Spread

/-- What a plan leaves over of a line. -/
def slack (problem : Problem Int) (amount : Cell → Rat) (line : Line) : Rat :=
  lineQuantity problem.supply problem.demand line -
    lineTotal problem.rows problem.cols amount line

/-- A plan with what it leaves over on added lines. -/
def spread (problem : Problem Int) (amount : Cell → Rat) (cell : Cell) : Rat :=
  if cell.row < problem.rows then
    if cell.col < problem.cols then amount cell else slack problem amount (.row cell.row)
  else slack problem amount (.col cell.col)

theorem spread_of_inTable {cell : Cell} (inTable : cell.InTable problem.rows problem.cols) :
    spread problem amount cell = amount cell := by
  rw [spread, if_pos inTable.1, if_pos inTable.2]

theorem spread_nonneg (exhausts : Exhausts problem amount) {cell : Cell}
    (crosses : cell.row < problem.rows ∨ cell.col < problem.cols) :
    0 ≤ spread problem amount cell := by
  unfold spread
  split
  next row =>
      split
      next col => exact exhausts.nonneg cell ⟨row, col⟩
      next => exact sub_nonneg.mpr (exhausts.within (.row cell.row) row)
  next added =>
      exact sub_nonneg.mpr (exhausts.within (.col cell.col) (crosses.resolve_left added))

/-- What all rows leave over is what the supply exceeds the plan by. -/
theorem sum_slack_rows (problem : Problem Int) (amount : Cell → Rat) :
    ∑ row ∈ Finset.range problem.rows, slack problem amount (.row row) =
      problem.supply.sum - tableTotal problem.rows problem.cols amount := by
  have supplied : ∑ row ∈ Finset.range problem.rows,
      lineQuantity problem.supply problem.demand (.row row) = problem.supply.sum :=
    sum_range_getD problem.supply
  simp only [slack, Finset.sum_sub_distrib, ← supplied, Int.cast_sum]
  rfl

theorem sum_slack_cols (problem : Problem Int) (amount : Cell → Rat) :
    ∑ col ∈ Finset.range problem.cols, slack problem amount (.col col) =
      problem.demand.sum - tableTotal problem.rows problem.cols amount := by
  have demanded : ∑ col ∈ Finset.range problem.cols,
      lineQuantity problem.supply problem.demand (.col col) = problem.demand.sum :=
    sum_range_getD problem.demand
  rw [tableTotal_eq_sum_colTotal]
  simp only [slack, Finset.sum_sub_distrib, ← demanded, Int.cast_sum]
  rfl

/-- A plan that uses up the columns ships the whole demand. -/
theorem Exhausts.tableTotal_eq_demand (exhausts : Exhausts problem amount)
    (excess : problem.demand.sum ≤ problem.supply.sum) :
    tableTotal problem.rows problem.cols amount = problem.demand.sum := by
  have none : ∑ col ∈ Finset.range problem.cols, slack problem amount (.col col) = 0 :=
    Finset.sum_eq_zero fun col member =>
      sub_eq_zero.mpr (exhausts.demanded excess col (Finset.mem_range.mp member)).symm
  rw [sum_slack_cols] at none
  exact (sub_eq_zero.mp none).symm

/-- A plan that uses up the rows ships the whole supply. -/
theorem Exhausts.tableTotal_eq_supply (exhausts : Exhausts problem amount)
    (shortage : problem.supply.sum ≤ problem.demand.sum) :
    tableTotal problem.rows problem.cols amount = problem.supply.sum := by
  have none : ∑ row ∈ Finset.range problem.rows, slack problem amount (.row row) = 0 :=
    Finset.sum_eq_zero fun row member =>
      sub_eq_zero.mpr (exhausts.supplied shortage row (Finset.mem_range.mp member)).symm
  rw [sum_slack_rows] at none
  exact (sub_eq_zero.mp none).symm

/-- With what its rows leave over in a column of its own, a plan that uses up the columns
meets every quantity. -/
theorem Exhausts.meets_withColumn (exhausts : Exhausts problem amount)
    (excess : problem.demand.sum ≤ problem.supply.sum) :
    Meets problem.rows (problem.cols + 1)
      (lineQuantity problem.supply
        (problem.demand ++ [problem.supply.sum - problem.demand.sum]))
      (spread problem amount) where
  nonneg cell inTable := spread_nonneg exhausts (.inl inTable.1)
  totals line inTable := by
    have added : ∀ row < problem.rows,
        spread problem amount ⟨row, problem.cols⟩ = slack problem amount (.row row) := by
      intro row bound
      simp [spread, bound]
    cases line with
    | row row =>
        have bound : row < problem.rows := inTable
        have old : ∑ col ∈ Finset.range problem.cols, spread problem amount ⟨row, col⟩ =
            rowTotal problem.cols amount row := Finset.sum_congr rfl fun col member =>
          spread_of_inTable ⟨bound, Finset.mem_range.mp member⟩
        calc rowTotal (problem.cols + 1) (spread problem amount) row
            = rowTotal problem.cols amount row + slack problem amount (.row row) := by
              rw [rowTotal, Finset.sum_range_succ, added row bound, old]
          _ = lineQuantity problem.supply problem.demand (.row row) := by
              simp [slack, lineTotal]
    | col col =>
        rcases Nat.lt_succ_iff_lt_or_eq.mp inTable with bound | rfl
        · calc colTotal problem.rows (spread problem amount) col
              = colTotal problem.rows amount col := Finset.sum_congr rfl fun row member =>
                spread_of_inTable ⟨Finset.mem_range.mp member, bound⟩
            _ = lineQuantity problem.supply problem.demand (.col col) :=
                exhausts.demanded excess col bound
            _ = lineQuantity problem.supply
                  (problem.demand ++ [problem.supply.sum - problem.demand.sum]) (.col col) := by
                simp [lineQuantity, List.getElem?_append_left bound]
        · calc colTotal problem.rows (spread problem amount) problem.cols
              = ∑ row ∈ Finset.range problem.rows, slack problem amount (.row row) :=
                Finset.sum_congr rfl fun row member => added row (Finset.mem_range.mp member)
            _ = problem.supply.sum - problem.demand.sum := by
                rw [sum_slack_rows, exhausts.tableTotal_eq_demand excess]
            _ = lineQuantity problem.supply
                  (problem.demand ++ [problem.supply.sum - problem.demand.sum])
                  (.col problem.cols) := by
                simp [lineQuantity, Problem.cols]

/-- With what its columns lack in a row of its own, a plan that uses up the rows meets every
quantity. -/
theorem Exhausts.meets_withRow (exhausts : Exhausts problem amount)
    (shortage : problem.supply.sum ≤ problem.demand.sum) :
    Meets (problem.rows + 1) problem.cols
      (lineQuantity (problem.supply ++ [problem.demand.sum - problem.supply.sum])
        problem.demand)
      (spread problem amount) where
  nonneg cell inTable := spread_nonneg exhausts (.inr inTable.2)
  totals line inTable := by
    have added : ∀ col,
        spread problem amount ⟨problem.rows, col⟩ = slack problem amount (.col col) := by
      intro col
      simp [spread]
    cases line with
    | row row =>
        rcases Nat.lt_succ_iff_lt_or_eq.mp inTable with bound | rfl
        · calc rowTotal problem.cols (spread problem amount) row
              = rowTotal problem.cols amount row := Finset.sum_congr rfl fun col member =>
                spread_of_inTable ⟨bound, Finset.mem_range.mp member⟩
            _ = lineQuantity problem.supply problem.demand (.row row) :=
                exhausts.supplied shortage row bound
            _ = lineQuantity (problem.supply ++ [problem.demand.sum - problem.supply.sum])
                  problem.demand (.row row) := by
                simp [lineQuantity, List.getElem?_append_left bound]
        · calc rowTotal problem.cols (spread problem amount) problem.rows
              = ∑ col ∈ Finset.range problem.cols, slack problem amount (.col col) :=
                Finset.sum_congr rfl fun col _ => added col
            _ = problem.demand.sum - problem.supply.sum := by
                rw [sum_slack_cols, exhausts.tableTotal_eq_supply shortage]
            _ = lineQuantity (problem.supply ++ [problem.demand.sum - problem.supply.sum])
                  problem.demand (.row problem.rows) := by
                simp [lineQuantity, Problem.rows]
    | col col =>
        have bound : col < problem.cols := inTable
        have old : ∑ row ∈ Finset.range problem.rows, spread problem amount ⟨row, col⟩ =
            colTotal problem.rows amount col := Finset.sum_congr rfl fun row member =>
          spread_of_inTable ⟨Finset.mem_range.mp member, bound⟩
        calc colTotal (problem.rows + 1) (spread problem amount) col
            = colTotal problem.rows amount col + slack problem amount (.col col) := by
              rw [colTotal, Finset.sum_range_succ, added col, old]
          _ = lineQuantity problem.supply problem.demand (.col col) := by
              simp [slack, lineTotal]

end Spread

end OptimalPlans.Transport
