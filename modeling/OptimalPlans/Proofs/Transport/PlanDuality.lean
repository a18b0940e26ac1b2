import OptimalPlans.Proofs.Transport.TableTotal

/-!
# Duality of plans and prices

Prices of the lines that no cell undercuts bound the cost of every plan from below by
what its lines are worth.  A plan that only uses cells which cost what their lines are
worth attains the bound, so no plan over the same lines is cheaper.
-/

namespace OptimalPlans.Transport

variable {rows cols : Nat}

/-- What a plan is worth at the prices of its lines depends on its line totals only. -/
theorem tableTotal_prices (price : Line → Rat) (amount : Cell → Rat) :
    tableTotal rows cols
        (fun cell => (price (.row cell.row) + price (.col cell.col)) * amount cell) =
      (∑ row ∈ Finset.range rows,
        price (.row row) * lineTotal rows cols amount (.row row)) +
      ∑ col ∈ Finset.range cols,
        price (.col col) * lineTotal rows cols amount (.col col) := by
  simp only [add_mul, tableTotal_add]
  exact congrArg₂ (· + ·) (tableTotal_rowPrice (fun row => price (.row row)) amount)
    (tableTotal_colPrice (fun col => price (.col col)) amount)

theorem tableTotal_le {first second : Cell → Rat}
    (below : ∀ cell : Cell, cell.InTable rows cols → first cell ≤ second cell) :
    tableTotal rows cols first ≤ tableTotal rows cols second :=
  Finset.sum_le_sum fun _ rowMember => Finset.sum_le_sum fun _ colMember =>
    below _ ⟨Finset.mem_range.mp rowMember, Finset.mem_range.mp colMember⟩

/-- Plans with the same line totals are worth the same. -/
theorem tableTotal_prices_congr {amount other : Cell → Rat} (price : Line → Rat)
    (totals : ∀ line : Line, line.InTable rows cols →
      lineTotal rows cols other line = lineTotal rows cols amount line) :
    tableTotal rows cols
        (fun cell => (price (.row cell.row) + price (.col cell.col)) * other cell) =
      tableTotal rows cols
        fun cell => (price (.row cell.row) + price (.col cell.col)) * amount cell := by
  rw [tableTotal_prices, tableTotal_prices]
  congr 1
  · refine Finset.sum_congr rfl fun row member => ?_
    rw [totals (.row row) (Finset.mem_range.mp member)]
  · refine Finset.sum_congr rfl fun col member => ?_
    rw [totals (.col col) (Finset.mem_range.mp member)]

/-- A plan that only uses cells priced by their lines is the cheapest among all plans
with its line totals, when no cell costs less than its lines are worth. -/
theorem priced_plan_le {cost amount other : Cell → Rat} {price : Line → Rat}
    (covered : ∀ cell : Cell, cell.InTable rows cols →
      price (.row cell.row) + price (.col cell.col) ≤ cost cell)
    (tight : ∀ cell : Cell, cell.InTable rows cols → amount cell ≠ 0 →
      cost cell = price (.row cell.row) + price (.col cell.col))
    (nonneg : ∀ cell : Cell, cell.InTable rows cols → 0 ≤ other cell)
    (totals : ∀ line : Line, line.InTable rows cols →
      lineTotal rows cols other line = lineTotal rows cols amount line) :
    tableTotal rows cols (fun cell => cost cell * amount cell) ≤
      tableTotal rows cols fun cell => cost cell * other cell := by
  have attained : ∀ cell : Cell, cell.InTable rows cols → cost cell * amount cell =
      (price (.row cell.row) + price (.col cell.col)) * amount cell := by
    intro cell inTable
    by_cases idle : amount cell = 0
    · simp [idle]
    · rw [tight cell inTable idle]
  have bounded : ∀ cell : Cell, cell.InTable rows cols →
      (price (.row cell.row) + price (.col cell.col)) * other cell ≤
        cost cell * other cell := fun cell inTable =>
    mul_le_mul_of_nonneg_right (covered cell inTable) (nonneg cell inTable)
  calc tableTotal rows cols (fun cell => cost cell * amount cell)
      = tableTotal rows cols fun cell =>
          (price (.row cell.row) + price (.col cell.col)) * amount cell :=
        tableTotal_congr attained
    _ = tableTotal rows cols fun cell =>
          (price (.row cell.row) + price (.col cell.col)) * other cell :=
        (tableTotal_prices_congr price totals).symm
    _ ≤ tableTotal rows cols fun cell => cost cell * other cell := tableTotal_le bounded

theorem cast_lineTotal (amount : Cell → Int) (line : Line) :
    ((lineTotal rows cols amount line : Int) : Rat) =
      lineTotal rows cols (fun cell => (amount cell : Rat)) line := by
  cases line <;> simp [lineTotal, rowTotal, colTotal]

theorem cast_tableTotal (amount : Cell → Int) :
    ((tableTotal rows cols amount : Int) : Rat) =
      tableTotal rows cols fun cell => (amount cell : Rat) := by
  simp [tableTotal, rowTotal]

end OptimalPlans.Transport
