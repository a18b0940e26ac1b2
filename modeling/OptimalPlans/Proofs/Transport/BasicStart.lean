import OptimalPlans.Proofs.Transport.Acceptance
import OptimalPlans.Proofs.Transport.ConnectedPlans
import OptimalPlans.Proofs.Transport.InitialPlans

/-!
# First plans are basic

Whatever finite costs an accepted problem has, a rule for a first plan serves its cells
without closing a loop.  The plan therefore extends to a spanning tree, and a refinement
that starts from it is not refused.
-/

namespace OptimalPlans.Transport

namespace Problem.Accepted

variable {problem : Problem Number}

theorem price_finite (accepted : problem.Accepted) {cell : Cell}
    (inTable : cell.InTable problem.rows problem.cols) :
    (problem.cost.price cell).isFinite = .ok true := by
  have rowBound : cell.row < problem.cost.length :=
    accepted.shaped.length_eq ▸ inTable.1
  have rowMember : problem.cost[cell.row] ∈ problem.cost := List.getElem_mem rowBound
  have colBound : cell.col < problem.cost[cell.row].length := by
    rw [accepted.shaped.row_length_eq _ rowMember]
    exact inTable.2
  have value : problem.cost.price cell = problem.cost[cell.row][cell.col] := by
    simp [Table.price, rowBound, colBound]
  rw [value]
  exact accepted.cost_finite _ rowMember _ (List.getElem_mem colBound)

theorem comparable (accepted : problem.Accepted) :
    problem.cost.Comparable problem.rows problem.cols := fun _ _ inTable otherInTable =>
  Number.sub_eq_ok_of_isFinite (accepted.price_finite inTable)
    (accepted.price_finite otherInTable)

end Problem.Accepted

section Start

variable {cost : Table Number} {supply demand : List Int}

/-- Every rule serves an accepted problem whose quantities are integers. -/
theorem Problem.Accepted.plan_serves
    (accepted : (⟨cost, supply.map Number.integer, demand.map Number.integer⟩ :
      Problem Number).Accepted) (rule : InitialRule) :
    ∃ allocations supplyLeft demandLeft,
      (rule.plan ⟨cost, supply.map Number.integer, demand.map Number.integer⟩).result =
        .ok (readAllocations allocations) ∧
      Serves supply demand allocations supplyLeft demandLeft := by
  have shaped := accepted.shaped
  have comparable := accepted.comparable
  simp only [Problem.rows, Problem.cols, List.length_map] at shaped comparable
  obtain ⟨allocations, supplyLeft, demandLeft, result, serves, _⟩ :=
    Transport.plan_serves rule shaped comparable (nonneg_of_accepted accepted.supply_nonneg)
      (nonneg_of_accepted accepted.demand_nonneg)
  exact ⟨allocations, supplyLeft, demandLeft, result, serves⟩

/-- A refinement of integers without a loop fails on an integer that is too large, or
because it has no limit or no tolerance. -/
theorem yields_refine {mayFail : Fault → Prop} (overflow : mayFail .integerTooLarge)
    {problem : Problem Number} (shaped : problem.cost.Shaped problem.rows problem.cols)
    (rowsPositive : 0 < problem.rows) (colsPositive : 0 < problem.cols)
    {allocations : List (Allocation Int)}
    (inTable : ∀ allocation ∈ allocations,
      allocation.cell.InTable problem.rows problem.cols)
    (loopless : Loopless (allocations.map (·.cell)))
    {initial : Option (List (Allocation Number))}
    (chosen : initialAllocations problem initial = .ok (readAllocations allocations))
    {limit : Except Fault Int} (limited : Yields mayFail (fun _ => True) limit)
    {tolerance : Except Fault Number} (tolerated : Yields mayFail (fun _ => True) tolerance) :
    Yields mayFail (fun _ => True) (refine problem initial limit tolerance).result := by
  obtain ⟨start, begins, _, proper, _⟩ :=
    startingPlan_eq_ok Scalar.integer_embedding Scalar.precedes_number shaped rowsPositive
      colsPositive inTable (loopless.mono (Amounts.cells_merged_subset allocations))
  rw [result_refine, chosen, ok_bind, begins, ok_bind]
  refine limited.bind fun limit _ => ?_
  exact proper.connected.yields_refineFrom overflow shaped rowsPositive limit tolerated
    limit.toNat 0

/-- Every rule lists distinct cells that form no loop and are fewer than the lines.  They
extend to a spanning tree, and a refinement that starts from them, as the one without given
allocations does, is not refused: what may stop it is an integer too large to be rounded,
or that its limit or its tolerance has failed. -/
theorem initial_plan_starts_refinement {costs supplied demanded : Value}
    (accepted : (validate costs supplied demanded).result =
      .ok ⟨cost, supply.map Number.integer, demand.map Number.integer⟩)
    (rule : InitialRule) :
    ∃ plan : List (Allocation Int),
      (rule.plan ⟨cost, supply.map Number.integer, demand.map Number.integer⟩).result =
        .ok (plan.map (Allocation.map Number.integer)) ∧
      (∀ allocation ∈ plan, allocation.cell.InTable supply.length demand.length) ∧
      (plan.map (·.cell)).Nodup ∧ Loopless (plan.map (·.cell)) ∧
      plan.length + 1 ≤ supply.length + demand.length ∧
      (∃ basis, spanningBasis cost (plan.map (·.cell)) supply.length demand.length =
          .ok basis ∧ SpanningTree supply.length demand.length basis) ∧
      ∀ limit tolerance fault initial,
        initial = none ∨ initial = some (plan.map (Allocation.map Number.integer)) →
        (refine ⟨cost, supply.map Number.integer, demand.map Number.integer⟩ initial limit
          tolerance).result = .error fault →
        fault = .integerTooLarge ∨ limit = .error fault ∨ tolerance = .error fault := by
  have accepts := validate_accepts accepted
  have shaped : Table.Shaped supply.length demand.length cost := by
    simpa [Problem.rows, Problem.cols] using accepts.shaped
  have rowsPositive : 0 < supply.length := by simpa [Problem.rows] using accepts.rows_pos
  have colsPositive : 0 < demand.length := by simpa [Problem.cols] using accepts.cols_pos
  obtain ⟨plan, supplyLeft, demandLeft, result, serves⟩ := accepts.plan_serves rule
  obtain ⟨loopless, nodup⟩ := serves.basic
  have cellsInTable : ∀ cell ∈ plan.map (·.cell), cell.InTable supply.length demand.length := by
    intro cell member
    obtain ⟨allocation, listed, rfl⟩ := List.mem_map.mp member
    exact serves.inTable listed
  have fewer := loopless.length_lt rowsPositive cellsInTable nodup
  obtain ⟨added, _, _, spans, tree⟩ :=
    spanningBasis_eq_ok Scalar.precedes_number shaped rowsPositive colsPositive cellsInTable
      loopless nodup
  refine ⟨plan, result, fun allocation => serves.inTable, nodup, loopless, ?_,
    ⟨_, spans, tree⟩, fun limit tolerance fault initial chosen failed => ?_⟩
  · simpa using fewer
  · let mayFail : Fault → Prop := fun fault =>
      fault = .integerTooLarge ∨ limit = .error fault ∨ tolerance = .error fault
    have begins : ∃ allocations first last,
        initialAllocations ⟨cost, supply.map Number.integer, demand.map Number.integer⟩
          initial = .ok (readAllocations allocations) ∧
        Serves supply demand allocations first last := by
      -- Without given allocations a refinement takes those of the penalty rule.
      rcases chosen with rfl | rfl
      · obtain ⟨penalized, first, last, listed, penaltyServes⟩ := accepts.plan_serves .penalty
        rw [result_plan] at listed
        exact ⟨penalized, first, last, listed, penaltyServes⟩
      · exact ⟨plan, supplyLeft, demandLeft, rfl, serves⟩
    obtain ⟨allocations, _, _, given, servesGiven⟩ := begins
    have yields : Yields mayFail (fun _ => True) (refine ⟨cost, supply.map Number.integer,
        demand.map Number.integer⟩ initial limit tolerance).result := by
      apply yields_refine (.inl rfl) accepts.shaped accepts.rows_pos accepts.cols_pos
        (fun allocation member => ?_) servesGiven.basic.1 given
        (Yields.of_faults fun fault failed => .inr (.inl failed))
        (Yields.of_faults fun fault failed => .inr (.inr failed))
      simpa [Problem.rows, Problem.cols] using servesGiven.inTable member
    exact yields.mayFail_of_eq_error failed

theorem degenerate_plan_starts_refinement :
    ∃ plan : List (Allocation Int),
      (InitialRule.northWest.plan
        ⟨[[.integer 4, .integer 6], [.integer 2, .integer 5]],
          [3, 4].map Number.integer, [3, 4].map Number.integer⟩).result =
        .ok (plan.map (Allocation.map Number.integer)) ∧
      plan.length + 1 ≤ 4 ∧ Loopless (plan.map (·.cell)) := by
  have accepted : (validate
      (.list [.list [.integer 4, .integer 6], .list [.integer 2, .integer 5]])
      (.list [.integer 3, .integer 4]) (.list [.integer 3, .integer 4])).result =
      .ok ⟨[[.integer 4, .integer 6], [.integer 2, .integer 5]],
        [3, 4].map Number.integer, [3, 4].map Number.integer⟩ := by
    cbv
  obtain ⟨plan, result, _, _, loopless, fewer, _⟩ :=
    initial_plan_starts_refinement accepted .northWest
  exact ⟨plan, result, fewer, loopless⟩

end Start

end OptimalPlans.Transport
