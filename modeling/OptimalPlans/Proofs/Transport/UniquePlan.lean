import OptimalPlans.Proofs.Transport.OptimalityCertificate

/-!
# Plans on forests

The amounts on a forest are determined by their line totals: prices that single out one
cell of the forest turn the line totals into its amount.  So a certified plan is the only
cheapest one with its line totals when every cell outside its basis costs more than its
lines are worth.
-/

namespace OptimalPlans.Transport

/-- Amounts on a forest that cancel over every line are zero. -/
theorem Loopless.eq_zero_of_totals {cells : List Cell} (loopless : Loopless cells)
    (nodup : cells.Nodup) {rows cols : Nat} {amount : Cell → Rat}
    (idle : ∀ cell : Cell, cell.InTable rows cols → cell ∉ cells → amount cell = 0)
    (totals : ∀ line : Line, line.InTable rows cols → lineTotal rows cols amount line = 0)
    {cell : Cell} (inTable : cell.InTable rows cols) : amount cell = 0 := by
  by_cases listed : cell ∈ cells
  · obtain ⟨price, prices⟩ :=
      loopless.exists_worth (fun other => if cell = other then 1 else 0) nodup
    let worth : Line → Rat := fun line => price line
    have singled : ∀ other : Cell, other.InTable rows cols →
        (if cell = other then amount other else 0) =
          (worth (.row other.row) + worth (.col other.col)) * amount other := by
      intro other otherInTable
      by_cases member : other ∈ cells
      · have sum : worth (.row other.row) + worth (.col other.col) =
            if cell = other then 1 else 0 := by
          simp only [worth]
          exact_mod_cast (prices other member).symm
        rw [sum, ite_mul, one_mul, zero_mul]
      · have different : cell ≠ other := fun same => member (same ▸ listed)
        rw [if_neg different, idle other otherInTable member, mul_zero]
    have cancels : ∀ line : Line, line.InTable rows cols →
        lineTotal rows cols amount line = lineTotal rows cols (fun _ => (0 : Rat)) line := by
      intro line lineInTable
      rw [totals line lineInTable]
      cases line <;> simp [lineTotal, rowTotal, colTotal]
    calc amount cell
        = tableTotal rows cols fun other => if cell = other then amount other else 0 :=
          (tableTotal_single inTable amount).symm
      _ = tableTotal rows cols fun other =>
            (worth (.row other.row) + worth (.col other.col)) * amount other :=
          tableTotal_congr singled
      _ = tableTotal rows cols fun other =>
            (worth (.row other.row) + worth (.col other.col)) * 0 :=
          tableTotal_prices_congr worth cancels
      _ = 0 := by simp [tableTotal, rowTotal]
  · exact idle cell inTable listed

/-- What one cell adds to a total without negative parts. -/
theorem le_tableTotal {rows cols : Nat} {amount : Cell → Rat}
    (nonneg : ∀ cell : Cell, cell.InTable rows cols → 0 ≤ amount cell) {cell : Cell}
    (inTable : cell.InTable rows cols) : amount cell ≤ tableTotal rows cols amount := by
  rw [← tableTotal_single inTable amount]
  apply tableTotal_le
  intro other otherInTable
  split
  next => exact le_rfl
  next => exact nonneg other otherInTable

section Certified

variable {problem : Problem Int} {plan : BasicPlan Int} {price : Line → Int}
  {other : Cell → Rat}

/-- Another plan with the same line totals costs more by what it ships where the cost
exceeds what the lines are worth. -/
theorem Certified.planCost_eq (certified : Certified problem plan price)
    (totals : ∀ line : Line, line.InTable problem.rows problem.cols →
      lineTotal problem.rows problem.cols other line =
        lineTotal problem.rows problem.cols plan.amounts.getOrZero line) :
    planCost problem other = planCost problem (fun cell => plan.amounts.getOrZero cell) +
      tableTotal problem.rows problem.cols fun cell =>
        reducedPrice problem.cost price cell * other cell := by
  let worth : Line → Rat := fun line => price line
  have parts : ∀ cell, (problem.cost.price cell : Rat) =
      (worth (.row cell.row) + worth (.col cell.col)) +
        reducedPrice problem.cost price cell := by
    intro cell
    simp only [worth, reducedPrice]
    push_cast
    ring
  have tight : ∀ cell : Cell,
      (worth (.row cell.row) + worth (.col cell.col)) * (plan.amounts.getOrZero cell : Rat) =
        problem.cost.price cell * plan.amounts.getOrZero cell := by
    intro cell
    by_cases basic : cell ∈ plan.basis
    · rw [parts cell, reducedPrice_of_mem certified.prices basic, Int.cast_zero, add_zero]
    · rw [certified.proper.getOrZero_of_absent basic, Int.cast_zero, mul_zero, mul_zero]
  have same : ∀ line : Line, line.InTable problem.rows problem.cols →
      lineTotal problem.rows problem.cols other line =
        lineTotal problem.rows problem.cols
          (fun cell => (plan.amounts.getOrZero cell : Rat)) line := by
    intro line inTable
    rw [totals line inTable, cast_lineTotal]
  have divided : planCost problem other =
      tableTotal problem.rows problem.cols (fun cell =>
        (worth (.row cell.row) + worth (.col cell.col)) * other cell) +
      tableTotal problem.rows problem.cols fun cell =>
        reducedPrice problem.cost price cell * other cell := by
    rw [planCost, ← tableTotal_add]
    refine tableTotal_congr fun cell _ => ?_
    rw [parts cell, add_mul]
  rw [divided, tableTotal_prices_congr worth same]
  simp only [tight, planCost]

/-- A certified plan outside whose basis every cell costs more than its lines are worth is
cheaper than every other plan with its line totals. -/
theorem Certified.planCost_lt (certified : Certified problem plan price)
    (strict : ∀ cell : Cell, cell.InTable problem.rows problem.cols → cell ∉ plan.basis →
      0 < reducedPrice problem.cost price cell)
    (meets : Meets problem.rows problem.cols
      (lineTotal problem.rows problem.cols plan.amounts.getOrZero) other) {cell : Cell}
    (inTable : cell.InTable problem.rows problem.cols)
    (different : other cell ≠ plan.amounts.getOrZero cell) :
    planCost problem (fun cell => plan.amounts.getOrZero cell) < planCost problem other := by
  -- The plan is determined by its line totals, so the other one leaves its basis.
  have leaves : ∃ spare : Cell, spare.InTable problem.rows problem.cols ∧
      spare ∉ plan.basis ∧ other spare ≠ 0 := by
    by_contra none
    push Not at none
    let difference : Cell → Rat := fun cell => other cell + -1 * plan.amounts.getOrZero cell
    have idle : ∀ spare : Cell, spare.InTable problem.rows problem.cols →
        spare ∉ plan.basis → difference spare = 0 := by
      intro spare spareInTable absent
      simp only [difference]
      rw [none spare spareInTable absent, certified.proper.getOrZero_of_absent absent,
        Int.cast_zero, mul_zero, add_zero]
    have cancels : ∀ line : Line, line.InTable problem.rows problem.cols →
        lineTotal problem.rows problem.cols difference line = 0 := by
      intro line lineInTable
      rw [lineTotal_add, lineTotal_mul, meets.totals line lineInTable, cast_lineTotal]
      ring
    have tree := certified.proper.tree
    have same := tree.loopless.eq_zero_of_totals tree.nodup idle cancels inTable
    simp only [difference] at same
    exact different (by linarith)
  obtain ⟨spare, spareInTable, absent, ships⟩ := leaves
  have nonneg : ∀ cell : Cell, cell.InTable problem.rows problem.cols →
      (0 : Rat) ≤ reducedPrice problem.cost price cell * other cell := by
    intro cell cellInTable
    have covered : (0 : Rat) ≤ reducedPrice problem.cost price cell := by
      exact_mod_cast certified.covered cell cellInTable
    exact mul_nonneg covered (meets.nonneg cell cellInTable)
  have gain : (0 : Rat) < reducedPrice problem.cost price spare * other spare := by
    have worth : (0 : Rat) < reducedPrice problem.cost price spare := by
      exact_mod_cast strict spare spareInTable absent
    exact mul_pos worth (lt_of_le_of_ne (meets.nonneg spare spareInTable) ships.symm)
  have total := le_tableTotal nonneg spareInTable
  rw [certified.planCost_eq meets.totals]
  linarith

end Certified

end OptimalPlans.Transport
