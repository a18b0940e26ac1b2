import OptimalPlans.Proofs.Transport.RefinementFaults

/-!
# Courses of the refinement

A refinement of a proper plan of integers follows a course over the integers: it pivots as
long as a cell enters, ends with a certified plan, or stops where no pivot is left to take.
Every iteration records the plan before its pivot, with the prices of its basis.
-/

namespace OptimalPlans.Transport

section Maps

variable {α β : Type} (f : α → β)

def Iteration.map (iteration : Iteration α) : Iteration β :=
  ⟨iteration.step, iteration.allocations.map (Allocation.map f), iteration.potentials.map f,
    iteration.reduced.mapEntries (Option.map f), f iteration.totalCost,
    iteration.pivot.map (Pivot.map f)⟩

def Refinement.map (record : Refinement α) : Refinement β :=
  ⟨record.iterations.map (Iteration.map f), record.optimal,
    record.allocations.map (Allocation.map f), f record.totalCost, record.alternatives⟩

/-- A record with one more iteration before the others. -/
def Refinement.cons (first : Iteration α) (later : Refinement α) : Refinement α :=
  { later with iterations := first :: later.iterations }

@[simp] theorem Refinement.iterations_cons (first : Iteration α) (later : Refinement α) :
    (later.cons first).iterations = first :: later.iterations := rfl

@[simp] theorem Refinement.optimal_cons (first : Iteration α) (later : Refinement α) :
    (later.cons first).optimal = later.optimal := rfl

@[simp] theorem Refinement.totalCost_cons (first : Iteration α) (later : Refinement α) :
    (later.cons first).totalCost = later.totalCost := rfl

end Maps

variable {problem : Problem Int}

/-- What is recorded of a proper plan before its pivot. -/
def snapshot (problem : Problem Int) (step : Nat) (plan : BasicPlan Int) (price : Line → Int)
    (pivot : Option (Pivot Int)) : Iteration Int :=
  ⟨step, plan.amounts.positiveAllocations, .priced problem.rows problem.cols price,
    reducedTable problem.cost price, planTotal problem plan.amounts.getOrZero, pivot⟩

@[simp] theorem snapshot_totalCost (step : Nat) (plan : BasicPlan Int) (price : Line → Int)
    (pivot : Option (Pivot Int)) :
    (snapshot problem step plan price pivot).totalCost =
      planTotal problem plan.amounts.getOrZero := rfl

@[simp] theorem snapshot_pivot (step : Nat) (plan : BasicPlan Int) (price : Line → Int)
    (pivot : Option (Pivot Int)) :
    (snapshot problem step plan price pivot).pivot = pivot := rfl

/-- The records of refinements by their budget, first step and first plan. -/
inductive Course (problem : Problem Int) : Nat → Nat → BasicPlan Int → Refinement Int → Prop
  | stopped {step : Nat} {plan : BasicPlan Int} :
      plan.Proper problem.rows problem.cols →
      Course problem 0 step plan
        ⟨[], false, plan.amounts.positiveAllocations,
          planTotal problem plan.amounts.getOrZero, []⟩
  | settled {budget step : Nat} {plan : BasicPlan Int} {price : Line → Int}
      (ties : List Cell) :
      Certified problem plan price →
      Course problem (budget + 1) step plan
        ⟨[snapshot problem step plan price none], true, plan.amounts.positiveAllocations,
          planTotal problem plan.amounts.getOrZero, ties⟩
  | pivoted {budget step : Nat} {plan next : BasicPlan Int} {price : Line → Int}
      {pivot : Pivot Int} {later : Refinement Int} :
      plan.Proper problem.rows problem.cols → Prices problem.cost plan.basis price →
      pivot.entering.InTable problem.rows problem.cols →
      reducedPrice problem.cost price pivot.entering < 0 → plan.Shifts pivot next →
      Course problem budget (step + 1) next later →
      Course problem (budget + 1) step plan
        (later.cons (snapshot problem step plan price (some pivot)))

/-- A refinement of a proper plan succeeds and follows a course. -/
theorem refineFrom_follows (valid : problem.Valid) {tolerance : Number}
    (tolerated : Tolerance tolerance) (limit : Int) (budget step : Nat)
    {plan : BasicPlan Int} (proper : plan.Proper problem.rows problem.cols) :
    ∃ record,
      (refineFrom (problem.map Number.integer) limit (.ok tolerance) budget step
        (plan.map Number.integer)).result = .ok (record.map Number.integer) ∧
      Course problem budget step plan record := by
  induction budget generalizing step plan with
  | zero =>
      obtain ⟨positive, inTable⟩ := proper.positive_eq_ok
      have total := valid.totalCost_map_eq_ok inTable
      rw [proper.shipped_eq] at total
      refine ⟨_, ?_, .stopped proper⟩
      rw [result_refineFrom_zero, positive, ok_bind, total]
      rfl
  | succ budget induction =>
      obtain ⟨price, prices, priced, reduced⟩ := proper.priced_eq_ok valid
      obtain ⟨positive, inTable⟩ := proper.positive_eq_ok
      have total := valid.totalCost_map_eq_ok inTable
      rw [proper.shipped_eq] at total
      obtain ⟨entering, entered, certified, enters⟩ :=
        enteringCell_certifies tolerated valid proper prices
      have shaped : ((reducedTable problem.cost price).mapEntries
          (Option.map Number.integer)).Shaped problem.rows problem.cols :=
        (shaped_reducedTable valid.shaped price).mapEntries _
      rw [result_refineFrom_succ]
      simp only [Problem.rows_map, Problem.cols_map, BasicPlan.basis_map, priced, reduced,
        entered, positive, total, ok_bind]
      cases entering with
      | none =>
          obtain ⟨ties, tied, _⟩ := Yields.succeeds
            (yields_alternatives (problem.map Number.integer) (by simpa using shaped) plan.basis
              tolerance)
          refine ⟨_, ?_, .settled ties (certified rfl)⟩
          dsimp only
          rw [tied]
          rfl
      | some cell =>
          obtain ⟨cellInTable, absent, negative⟩ := enters cell rfl
          obtain ⟨pivot, _, next, found, _, _, pivoted, nextProper, rfl, shifts⟩ :=
            proper.pivot_map_eq_ok Scalar.integer_embedding valid.rows_pos cellInTable absent
          obtain ⟨later, goesOn, course⟩ := induction (step + 1) nextProper
          obtain ⟨_, read, _⟩ := Yields.succeeds (shaped.yields_entry cellInTable)
          refine ⟨_, ?_, .pivoted proper prices cellInTable negative shifts course⟩
          dsimp only
          rw [found, ok_bind, read, ok_bind, pivoted, ok_bind, goesOn]
          rfl

end OptimalPlans.Transport
