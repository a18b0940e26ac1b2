import OptimalPlans.Proofs.Transport.Descent
import OptimalPlans.Proofs.Transport.UniquePlan

/-!
# Alternative optima

A refinement that claims to be optimal lists the cells outside its last basis that cost
just what their lines are worth.  Pivots to these cells keep the cost.  When there are
none, the plan is the only cheapest one with its line totals; the converse need not hold,
since a degenerate pivot to such a cell leads to the same plan.
-/

namespace OptimalPlans.Transport

/-! ## The list of tied cells -/

/-- The cells outside a basis that cost what their lines are worth. -/
def tiedCells (problem : Problem Int) (basis : List Cell) (price : Line → Int) : List Cell :=
  (Cell.all problem.rows problem.cols).filter fun cell =>
    cell ∉ basis ∧ reducedPrice problem.cost price cell = 0

section Ties

variable {problem : Problem Int} {basis : List Cell} {price : Line → Int} {cell : Cell}

theorem mem_tiedCells_iff : cell ∈ tiedCells problem basis price ↔
    cell.InTable problem.rows problem.cols ∧ cell ∉ basis ∧
      reducedPrice problem.cost price cell = 0 := by
  rw [tiedCells, List.mem_filter, Cell.mem_all_iff, decide_eq_true_eq]

/-- A cell of the table is read with what its cost leaves after its lines are paid. -/
theorem entry_reducedTable (valid : problem.Valid)
    (inTable : cell.InTable problem.rows problem.cols) :
    ((reducedTable problem.cost price).mapEntries (Option.map Number.integer)).entry cell =
      .ok (some (.integer (reducedPrice problem.cost price cell))) := by
  have member := (mem_entries_reducedTable valid.shaped).mpr
    ⟨inTable, (rfl : _ = some (reducedPrice problem.cost price cell))⟩
  rw [Table.entry_mapEntries, Table.entry_of_mem_entries member]
  rfl

theorem alternatives_eq_ok (valid : problem.Valid) {tolerance : Number}
    (tolerated : Tolerance tolerance) :
    alternatives (problem.map Number.integer) basis
      ((reducedTable problem.cost price).mapEntries (Option.map Number.integer)) tolerance =
        .ok (tiedCells problem basis price) := by
  unfold alternatives
  rw [Problem.rows_map, Problem.cols_map]
  refine Scalar.filterBy_eq_ok fun cell member => ?_
  by_cases basic : cell ∈ basis
  · simp [basic]
  · rw [entry_reducedTable valid (Cell.mem_all_iff.mp member)]
    have tied := Number.abs_lessEq_tolerance tolerated.nonneg tolerated.small
      (reducedPrice problem.cost price cell)
    simp only [List.contains_eq_mem, basic, decide_false, Bool.false_eq_true, if_false,
      ok_bind, not_false_eq_true, true_and]
    exact congrArg Except.ok tied

end Ties

/-! ## Where a refinement settles -/

section Run

variable {problem : Problem Int}

/-- One step of the refinement of a proper plan: it settles at the plan, or it pivots and
goes on. -/
theorem refineFrom_step (valid : problem.Valid) {tolerance : Number}
    (tolerated : Tolerance tolerance) (limit : Int) (budget step : Nat) {plan : BasicPlan Int}
    (proper : plan.Proper problem.rows problem.cols) :
    (∃ price, Certified problem plan price ∧
      Potentials.ofBasis (problem.map Number.integer).cost plan.basis problem.rows
        problem.cols =
          .ok ((Potentials.priced problem.rows problem.cols price).map Number.integer) ∧
      (refineFrom (problem.map Number.integer) limit (.ok tolerance) (budget + 1) step
        (plan.map Number.integer)).result =
          .ok (Refinement.map Number.integer
            ⟨[snapshot problem step plan price none], true, plan.amounts.positiveAllocations,
              planTotal problem plan.amounts.getOrZero,
              tiedCells problem plan.basis price⟩)) ∨
    ∃ (price : Line → Int) (pivot : Pivot Int) (next : BasicPlan Int),
      next.Proper problem.rows problem.cols ∧
      (plan.map Number.integer).pivot (pivot.map Number.integer) =
        .ok (next.map Number.integer) ∧
      (refineFrom (problem.map Number.integer) limit (.ok tolerance) (budget + 1) step
        (plan.map Number.integer)).result = (do
          let later ← (refineFrom (problem.map Number.integer) limit (.ok tolerance) budget
            (step + 1) (next.map Number.integer)).result
          return later.cons
            ((snapshot problem step plan price (some pivot)).map Number.integer)) := by
  obtain ⟨price, prices, priced, reduced⟩ := proper.priced_eq_ok valid
  obtain ⟨positive, inTable⟩ := proper.positive_eq_ok
  have total := valid.totalCost_map_eq_ok inTable
  rw [proper.shipped_eq] at total
  obtain ⟨entering, entered, certified, enters⟩ :=
    enteringCell_certifies tolerated valid proper prices
  rw [result_refineFrom_succ]
  simp only [Problem.rows_map, Problem.cols_map, BasicPlan.basis_map, priced, reduced,
    entered, positive, total, ok_bind]
  cases entering with
  | none =>
      refine .inl ⟨price, certified rfl, rfl, ?_⟩
      dsimp only
      rw [alternatives_eq_ok valid tolerated]
      rfl
  | some cell =>
      obtain ⟨cellInTable, absent, _⟩ := enters cell rfl
      obtain ⟨pivot, _, next, found, _, _, pivoted, nextProper, rfl, _⟩ :=
        proper.pivot_map_eq_ok Scalar.integer_embedding valid.rows_pos cellInTable absent
      refine .inr ⟨price, pivot, next, nextProper, pivoted, ?_⟩
      dsimp only
      rw [found, ok_bind, entry_reducedTable valid cellInTable, ok_bind, pivoted, ok_bind]
      rfl

/-- A record whose pivots lead from a plan to a certified one, which it returns together
with its tied cells. -/
structure Settles (problem : Problem Int) (plan : BasicPlan Int)
    (record : Refinement Number) (final : BasicPlan Int) (price : Line → Int) : Prop where
  certified : Certified problem final price
  priced : Potentials.ofBasis (problem.map Number.integer).cost final.basis problem.rows
    problem.cols = .ok ((Potentials.priced problem.rows problem.cols price).map Number.integer)
  replays : (record.iterations.filterMap (·.pivot)).foldlM BasicPlan.pivot
    (plan.map Number.integer) = .ok (final.map Number.integer)
  last : ∃ step, record.iterations.getLast? =
    some ((snapshot problem step final price none).map Number.integer)
  allocations : record.allocations =
    final.amounts.positiveAllocations.map (Allocation.map Number.integer)
  total : record.totalCost = .integer (planTotal problem final.amounts.getOrZero)
  ties : record.alternatives = tiedCells problem final.basis price

/-- A pivot before a record that settles. -/
theorem Settles.cons {plan next final : BasicPlan Int} {later : Refinement Number}
    {price : Line → Int} (settles : Settles problem next later final price)
    {first : Iteration Number} {pivot : Pivot Int}
    (pivots : first.pivot = some (pivot.map Number.integer))
    (pivoted : (plan.map Number.integer).pivot (pivot.map Number.integer) =
      .ok (next.map Number.integer)) :
    Settles problem plan (later.cons first) final price where
  certified := settles.certified
  priced := settles.priced
  replays := by
    rw [Refinement.iterations_cons, List.filterMap_cons_some pivots, List.foldlM_cons, pivoted,
      ok_bind]
    exact settles.replays
  last := by
    obtain ⟨step, last⟩ := settles.last
    refine ⟨step, ?_⟩
    rw [Refinement.iterations_cons, List.getLast?_cons, last]
    rfl
  allocations := settles.allocations
  total := settles.total
  ties := settles.ties

/-- A refinement of a proper plan that claims to be optimal settles. -/
theorem refineFrom_settles (valid : problem.Valid) {tolerance : Number}
    (tolerated : Tolerance tolerance) (limit : Int) (budget step : Nat) {plan : BasicPlan Int}
    (proper : plan.Proper problem.rows problem.cols) {record : Refinement Number}
    (result : (refineFrom (problem.map Number.integer) limit (.ok tolerance) budget step
      (plan.map Number.integer)).result = .ok record)
    (optimal : record.optimal = true) :
    ∃ final price, Settles problem plan record final price := by
  induction budget generalizing step plan record with
  | zero =>
      rw [result_refineFrom_zero] at result
      obtain ⟨_, _, result⟩ := bind_eq_ok_iff.mp result
      obtain ⟨_, _, result⟩ := bind_eq_ok_iff.mp result
      obtain rfl := Except.ok.inj result
      cases optimal
  | succ budget induction =>
      rcases refineFrom_step valid tolerated limit budget step proper with
        ⟨price, certified, priced, settled⟩ | ⟨price, pivot, next, nextProper, pivoted, goesOn⟩
      · obtain rfl := Except.ok.inj (settled.symm.trans result)
        exact ⟨plan, price, certified, priced, rfl, ⟨step, rfl⟩, rfl, rfl, rfl⟩
      · rw [goesOn] at result
        obtain ⟨later, follows, result⟩ := bind_eq_ok_iff.mp result
        obtain rfl := Except.ok.inj result
        obtain ⟨final, price, settles⟩ := induction (step + 1) nextProper follows optimal
        exact ⟨final, price, settles.cons rfl pivoted⟩

/-- A pivot to a tied cell keeps the cost. -/
theorem Certified.pivot_tied (valid : problem.Valid) {final : BasicPlan Int}
    {price : Line → Int} (certified : Certified problem final price) {cell : Cell}
    (tied : cell ∈ tiedCells problem final.basis price) :
    ∃ pivot next listed, pivotFor (final.map Number.integer) cell = .ok pivot ∧
      (final.map Number.integer).pivot pivot = .ok next ∧
      next.amounts.positive = .ok listed ∧
      totalCost (problem.map Number.integer).cost listed =
        .ok (.integer (planTotal problem final.amounts.getOrZero)) := by
  obtain ⟨inTable, absent, zero⟩ := mem_tiedCells_iff.mp tied
  obtain ⟨pivot, _, next, found, _, _, pivoted, nextProper, rfl, shifts⟩ :=
    certified.proper.pivot_map_eq_ok Scalar.integer_embedding valid.rows_pos inTable absent
  obtain ⟨positive, nextInTable⟩ := nextProper.positive_eq_ok
  refine ⟨_, _, _, found, pivoted, positive, ?_⟩
  rw [valid.totalCost_map_eq_ok nextInTable, nextProper.shipped_eq,
    shifts.planTotal_eq certified.proper inTable certified.prices, zero, mul_zero, add_zero]

/-- A refinement of integers that claims to be optimal lists, once each and in row-major
order, the cells outside its last basis whose reduced cost in its last iteration is zero;
the last basis is the one that the recorded pivots lead to.  A further pivot to a listed
cell keeps the cost.  When no cell is listed, every other plan with the same line totals
costs more, fractions included. -/
theorem refine_lists_alternatives (valid : problem.Valid)
    {initial : Option (List (Allocation Int))}
    (inTable : ∀ allocations, initial = some allocations → ∀ allocation ∈ allocations,
      allocation.cell.InTable problem.rows problem.cols)
    {limit : Int} {tolerance : Number} (tolerated : Tolerance tolerance)
    {course : Refinement Number}
    (result : (refine (problem.map Number.integer)
      (initial.map (List.map (Allocation.map Number.integer))) (.ok limit)
      (.ok tolerance)).result = .ok course)
    (optimal : course.optimal = true) :
    ∃ (given : List (Allocation Number)) (start final : BasicPlan Number)
        (last : Iteration Number),
      initialAllocations (problem.map Number.integer)
        (initial.map (List.map (Allocation.map Number.integer))) = .ok given ∧
      (startingPlan (problem.map Number.integer) given).result = .ok start ∧
      (course.iterations.filterMap (·.pivot)).foldlM BasicPlan.pivot start = .ok final ∧
      course.iterations.getLast? = some last ∧ last.pivot = none ∧
      Potentials.ofBasis (problem.map Number.integer).cost final.basis problem.rows
        problem.cols = .ok last.potentials ∧
      final.amounts.positive = .ok course.allocations ∧
      (course.alternatives.Pairwise fun left right =>
        left.row < right.row ∨ left.row = right.row ∧ left.col < right.col) ∧
      (∀ cell : Cell, cell ∈ course.alternatives ↔
        cell.InTable problem.rows problem.cols ∧ cell ∉ final.basis ∧
          last.reduced.entry cell = .ok (some (.integer 0))) ∧
      (∀ cell ∈ course.alternatives, ∃ pivot next listed,
        pivotFor final cell = .ok pivot ∧ final.pivot pivot = .ok next ∧
        next.amounts.positive = .ok listed ∧
        totalCost (problem.map Number.integer).cost listed = .ok course.totalCost) ∧
      ∃ (plan : List (Allocation Int)) (total : Int),
        course.allocations = plan.map (Allocation.map Number.integer) ∧
        course.totalCost = .integer total ∧
        (total : Rat) = planCost problem (fun cell => shipped plan cell) ∧
        (course.alternatives = [] → ∀ other, Meets problem.rows problem.cols
            (lineTotal problem.rows problem.cols (shipped plan)) other →
          (∃ cell : Cell, cell.InTable problem.rows problem.cols ∧
            other cell ≠ shipped plan cell) →
          (total : Rat) < planCost problem other) := by
  rw [result_refine] at result
  obtain ⟨given, chosen, afterChoice⟩ := bind_eq_ok_iff.mp result
  obtain ⟨begun, starts, refined⟩ := bind_eq_ok_iff.mp afterChoice
  obtain ⟨allocations, rfl, allocationsInTable, _⟩ := initial_allocations valid inTable chosen
  obtain ⟨start, begins, proper, _⟩ := valid.startingPlan_eq_ok allocationsInTable
    (loopless_of_startingPlan Scalar.integer_embedding starts)
  obtain rfl := Except.ok.inj (starts.symm.trans begins)
  obtain ⟨final, price, settles⟩ :=
    refineFrom_settles valid tolerated limit limit.toNat 0 proper refined optimal
  obtain ⟨step, last⟩ := settles.last
  have certified := settles.certified
  have listed : ∀ cell : Cell, cell ∈ course.alternatives ↔
      cell.InTable problem.rows problem.cols ∧ cell ∉ final.basis ∧
        reducedPrice problem.cost price cell = 0 := by
    intro cell
    rw [settles.ties, mem_tiedCells_iff]
  refine ⟨_, _, final.map Number.integer, _, chosen, starts, settles.replays, last, rfl,
    settles.priced, ?_, ?_, ?_, ?_, final.amounts.positiveAllocations,
    planTotal problem final.amounts.getOrZero, settles.allocations, settles.total, ?_, ?_⟩
  · rw [settles.allocations]
    exact certified.proper.positive_eq_ok.1
  · rw [settles.ties]
    exact (Cell.pairwise_all _ _).filter _
  · intro cell
    rw [listed]
    refine and_congr_right fun cellInTable => and_congr_right fun _ => ?_
    have read : ((snapshot problem step final price none).map Number.integer).reduced.entry
        cell = .ok (some (.integer (reducedPrice problem.cost price cell))) :=
      entry_reducedTable valid cellInTable
    rw [read, Except.ok.injEq, Option.some.injEq, Number.integer.injEq]
  · intro cell member
    rw [settles.total]
    exact certified.pivot_tied valid (settles.ties ▸ member)
  · rw [certified.proper.shipped_eq, cast_planTotal]
  · intro none other meets different
    rw [certified.proper.shipped_eq] at meets different
    obtain ⟨cell, cellInTable, differs⟩ := different
    have strict : ∀ cell : Cell, cell.InTable problem.rows problem.cols →
        cell ∉ final.basis → 0 < reducedPrice problem.cost price cell := by
      intro spare spareInTable absent
      have untied : spare ∉ course.alternatives := none ▸ List.not_mem_nil
      have nonzero : reducedPrice problem.cost price spare ≠ 0 := fun zero =>
        untied ((listed spare).mpr ⟨spareInTable, absent, zero⟩)
      have covered := certified.covered spare spareInTable
      omega
    rw [cast_planTotal]
    exact certified.planCost_lt strict meets cellInTable differs

theorem square_refinement_has_no_alternatives :
    ∃ (course : Refinement Number) (plan : List (Allocation Int)) (total : Int),
      (refine (Problem.map Number.integer ⟨[[4, 6], [2, 5]], [3, 4], [5, 2]⟩) none
        (.ok 100) (.ok (.integer 0))).result = .ok course ∧
      course.optimal = true ∧ course.alternatives = [] ∧
      course.allocations = plan.map (Allocation.map Number.integer) ∧
      course.totalCost = .integer total ∧
      ∀ other, Meets 2 2 (lineTotal 2 2 (shipped plan)) other →
        (∃ cell : Cell, cell.InTable 2 2 ∧ other cell ≠ shipped plan cell) →
        (total : Rat) < planCost ⟨[[4, 6], [2, 5]], [3, 4], [5, 2]⟩ other := by
  let problem : Problem Int := ⟨[[4, 6], [2, 5]], [3, 4], [5, 2]⟩
  have valid : problem.Valid :=
    ⟨⟨rfl, by simp [problem, Problem.cols]⟩, by decide, by decide, by decide, by decide⟩
  have runs : (refine (problem.map Number.integer) none (.ok 100)
      (.ok (.integer 0))).result.map (fun course => (course.optimal, course.alternatives)) =
        .ok (true, []) := by
    cbv
  cases result : (refine (problem.map Number.integer) none (.ok 100)
      (.ok (.integer 0))).result with
  | error fault =>
      rw [result] at runs
      cases runs
  | ok course =>
      rw [result, map_ok, Except.ok.injEq, Prod.mk.injEq] at runs
      have inTable : ∀ allocations,
          (none : Option (List (Allocation Int))) = some allocations →
          ∀ allocation ∈ allocations,
            allocation.cell.InTable problem.rows problem.cols := by simp
      obtain ⟨_, _, _, _, _, _, _, _, _, _, _, _, _, _, plan, total, listed, cost, _, unique⟩ :=
        refine_lists_alternatives valid inTable ⟨by decide, by decide⟩ result runs.1
      exact ⟨course, plan, total, rfl, runs.1, runs.2, listed, cost, unique runs.2⟩

end Run

end OptimalPlans.Transport
