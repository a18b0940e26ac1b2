import OptimalPlans.Proofs.Transport.RefinementStep
import OptimalPlans.Proofs.Transport.ServingRules

/-!
# First plans of integers

Costs that are integers can be compared and are bounded, so every rule for a first plan
runs to the end on them.  Its plan ships as much as the smaller of the two totals, and
where the totals agree it meets every quantity.
-/

namespace OptimalPlans.Transport

theorem Table.price_mapEntries {α β : Type} [Scalar α] [Scalar β] {f : α → β}
    (zero : f (Scalar.ofInt 0) = Scalar.ofInt 0) (table : Table α) (cell : Cell) :
    (table.mapEntries f).price cell = f (table.price cell) := by
  rw [Table.price, Table.price, Table.mapEntries, List.getElem?_map]
  cases table[cell.row]? with
  | none => exact zero.symm
  | some row =>
      rw [Option.map_some, Option.bind_some, Option.bind_some, List.getElem?_map]
      cases row[cell.col]? with
      | none => exact zero.symm
      | some value => rfl

theorem Table.comparable_mapEntries (rows cols : Nat) (cost : Table Int) :
    Table.Comparable rows cols (cost.mapEntries Number.integer) := by
  intro cell other _ _
  rw [Table.price_mapEntries rfl, Table.price_mapEntries rfl]
  exact ⟨_, rfl⟩

section Integers

variable {problem : Problem Int}

/-- On integers every rule runs until all rows or all columns are used up. -/
theorem Problem.Valid.plan_serves (valid : problem.Valid) (rule : InitialRule) :
    ∃ allocations supplyLeft demandLeft,
      (rule.plan (problem.map Number.integer)).result = .ok (readAllocations allocations) ∧
      Serves problem.supply problem.demand allocations supplyLeft demandLeft ∧
      Closed supplyLeft demandLeft := by
  obtain ⟨allocations, supplyLeft, demandLeft, result, serves, closed⟩ :=
    Transport.plan_serves rule (valid.shaped.mapEntries Number.integer)
      (Table.comparable_mapEntries _ _ problem.cost) valid.supply_nonneg valid.demand_nonneg
  refine ⟨allocations, supplyLeft, demandLeft, result, serves, closed fun cell _ => ?_⟩
  rw [Table.price_mapEntries rfl]
  rfl

/-- A refinement starts from the given allocations, or else from those of the penalty rule,
which ship without a loop. -/
theorem Problem.Valid.initialAllocations_eq_ok (valid : problem.Valid)
    (initial : Option (List (Allocation Int))) :
    ∃ allocations : List (Allocation Int),
      initialAllocations (problem.map Number.integer)
        (initial.map (List.map (Allocation.map Number.integer))) =
          .ok (allocations.map (Allocation.map Number.integer)) ∧
      (∀ given, initial = some given → allocations = given) ∧
      (initial = none → Ships problem.supply problem.demand allocations ∧
        Loopless (Amounts.merged allocations).cells) := by
  cases initial with
  | some given => exact ⟨given, rfl, fun other same => Option.some.inj same, by simp⟩
  | none =>
      obtain ⟨allocations, _, _, result, serves, closed⟩ := valid.plan_serves .penalty
      rw [result_plan] at result
      have ships := serves.ships closed valid.supply_nonneg valid.demand_nonneg
      exact ⟨allocations, result, by simp, fun _ =>
        ⟨ships, serves.basic.1.mono (Amounts.cells_merged_subset allocations)⟩⟩

/-- Every rule lists distinct cells with positive amounts, ships from no row and to no
column more than its quantity, and ships in total the smaller of supply and demand.  Where
these agree, every quantity is met. -/
theorem initial_plan_ships_all (valid : problem.Valid) (rule : InitialRule) :
    ∃ plan : List (Allocation Int),
      (rule.plan (problem.map Number.integer)).result =
        .ok (plan.map (Allocation.map Number.integer)) ∧
      (plan.map (·.cell)).Nodup ∧
      (∀ allocation ∈ plan, allocation.cell.InTable problem.rows problem.cols ∧
        0 < allocation.amount) ∧
      (∀ line, lineTotal problem.rows problem.cols (shipped plan) line ≤
        lineQuantity problem.supply problem.demand line) ∧
      (plan.map (·.amount)).sum = min problem.supply.sum problem.demand.sum ∧
      (problem.supply.sum = problem.demand.sum →
        ∀ line : Line, line.InTable problem.rows problem.cols →
          lineTotal problem.rows problem.cols (shipped plan) line =
            lineQuantity problem.supply problem.demand line) := by
  obtain ⟨plan, supplyLeft, demandLeft, result, serves, closed⟩ := valid.plan_serves rule
  have ships := serves.ships closed valid.supply_nonneg valid.demand_nonneg
  refine ⟨plan, result, serves.basic.2, fun allocation member => ?_, ships.within,
    ships.sum_amount, fun balanced line inTable => ships.meets balanced inTable⟩
  exact ⟨ships.inTable allocation member, ships.positive allocation member⟩

theorem unbalanced_plan_ships_all :
    ∃ plan : List (Allocation Int),
      (InitialRule.penalty.plan
        (Problem.map Number.integer ⟨[[4, 6], [2, 5], [1, 1]], [3, 0, 2], [2, 1]⟩)).result =
          .ok (plan.map (Allocation.map Number.integer)) ∧
      (plan.map (·.amount)).sum = 3 := by
  let problem : Problem Int := ⟨[[4, 6], [2, 5], [1, 1]], [3, 0, 2], [2, 1]⟩
  have valid : problem.Valid := by
    refine ⟨⟨rfl, ?_⟩, by decide, by decide, ?_, ?_⟩ <;>
      simp [problem, Problem.cols]
  obtain ⟨plan, result, _, _, _, total, _⟩ := initial_plan_ships_all valid .penalty
  exact ⟨plan, result, total⟩

end Integers

end OptimalPlans.Transport
