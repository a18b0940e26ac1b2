import OptimalPlans.Proofs.Transport.InitialPlans
import OptimalPlans.Proofs.Transport.PlanDuality
import OptimalPlans.Proofs.Transport.RefinementCourse

/-!
# Optimality of the refined plan

A refinement only claims to be optimal when the prices of its last basis certify it.
Duality turns the certificate into a bound for every plan with the same line totals, and
the penalty rule makes these totals the quantities of a balanced problem.
-/

namespace OptimalPlans.Transport

/-- The cost of shipping fractions of the quantities. -/
def planCost (problem : Problem Int) (amount : Cell → Rat) : Rat :=
  tableTotal problem.rows problem.cols fun cell => problem.cost.price cell * amount cell

theorem cast_planTotal (problem : Problem Int) (amount : Cell → Int) :
    ((planTotal problem amount : Int) : Rat) = planCost problem fun cell => amount cell := by
  rw [planTotal, cast_tableTotal, planCost]
  simp only [Int.cast_mul]

/-- Amounts that are not negative and ship over every line what is required. -/
structure Meets (rows cols : Nat) (required : Line → Int) (amount : Cell → Rat) :
    Prop where
  nonneg : ∀ cell : Cell, cell.InTable rows cols → 0 ≤ amount cell
  totals : ∀ line : Line, line.InTable rows cols →
    lineTotal rows cols amount line = required line

section Run

variable {problem : Problem Int}

/-- A certified plan is the cheapest among all plans with its line totals. -/
theorem Certified.planCost_le {plan : BasicPlan Int} {price : Line → Int}
    (certified : Certified problem plan price) {other : Cell → Rat}
    (meets : Meets problem.rows problem.cols
      (lineTotal problem.rows problem.cols plan.amounts.getOrZero) other) :
    planCost problem (fun cell => plan.amounts.getOrZero cell) ≤ planCost problem other := by
  let worth : Line → Rat := fun line => price line
  have covered : ∀ cell : Cell, cell.InTable problem.rows problem.cols →
      worth (.row cell.row) + worth (.col cell.col) ≤ problem.cost.price cell := by
    intro cell inTable
    have bound := certified.covered cell inTable
    rw [reducedPrice] at bound
    have bounded : price (.row cell.row) + price (.col cell.col) ≤
        problem.cost.price cell := by omega
    simp only [worth]
    exact_mod_cast bounded
  have tight : ∀ cell : Cell, cell.InTable problem.rows problem.cols →
      (plan.amounts.getOrZero cell : Rat) ≠ 0 → (problem.cost.price cell : Rat) =
        worth (.row cell.row) + worth (.col cell.col) := by
    intro cell _ shipping
    have basic : cell ∈ plan.basis := by
      by_contra absent
      exact shipping (by rw [certified.proper.getOrZero_of_absent absent, Int.cast_zero])
    simp only [worth]
    exact_mod_cast certified.prices cell basic
  refine priced_plan_le covered tight meets.nonneg fun line inTable => ?_
  rw [meets.totals line inTable, cast_lineTotal]

/-- A course that claims to be optimal ends with a certified plan, which ships over every
line what the first plan does. -/
theorem Course.certified {budget step : Nat} {plan : BasicPlan Int} {record : Refinement Int}
    (course : Course problem budget step plan record) (optimal : record.optimal = true) :
    ∃ final price, Certified problem final price ∧
      (∀ line, lineTotal problem.rows problem.cols final.amounts.getOrZero line =
        lineTotal problem.rows problem.cols plan.amounts.getOrZero line) ∧
      record.allocations = final.amounts.positiveAllocations ∧
      record.totalCost = planTotal problem final.amounts.getOrZero := by
  induction course with
  | stopped => cases optimal
  | settled ties certified => exact ⟨_, _, certified, fun _ => rfl, rfl, rfl⟩
  | pivoted proper _ inTable _ shifts _ induction =>
      obtain ⟨final, price, certified, kept, listed⟩ := induction optimal
      refine ⟨final, price, certified, fun line => ?_, listed⟩
      rw [kept, shifts.lineTotal_eq proper inTable]

end Run

/-! ## The refinement of an initial plan -/

/-- Only allocations without a loop start a plan. -/
theorem loopless_of_startingPlan {α : Type} [Scalar α] {embed : Int → α}
    (embedding : Scalar.Embedding embed) {problem : Problem α}
    {allocations : List (Allocation Int)} {start : BasicPlan α}
    (result : (startingPlan problem (allocations.map (Allocation.map embed))).result =
      .ok start) : Loopless (Amounts.merged allocations).cells := by
  rw [result_startingPlan, Amounts.merge_map embedding, Amounts.merge_eq_ok, map_ok,
    ok_bind, Amounts.cells_mapAmounts] at result
  obtain ⟨given, collected, _⟩ := bind_eq_ok_iff.mp result
  obtain ⟨_, loopless, _⟩ := acyclic_eq_ok_iff.mp collected
  have sorted : (Cell.sort (Amounts.merged allocations).cells).Perm
      (Amounts.merged allocations).cells := List.mergeSort_perm _ _
  exact loopless.mono sorted.symm.subset

section Refine

variable {problem : Problem Int}

/-- The certificate of a refinement that starts from given allocations. -/
theorem refine_certified (valid : problem.Valid) {tolerance : Number}
    (tolerated : Tolerance tolerance) {limit : Int} {allocations : List (Allocation Int)}
    (inTable : ∀ allocation ∈ allocations,
      allocation.cell.InTable problem.rows problem.cols)
    {start : BasicPlan Number} {course : Refinement Number}
    (starts : (startingPlan (problem.map Number.integer)
      (allocations.map (Allocation.map Number.integer))).result = .ok start)
    (result : (refineFrom (problem.map Number.integer) limit (.ok tolerance) limit.toNat 0
      start).result = .ok course)
    (optimal : course.optimal = true) :
    ∃ final price, Certified problem final price ∧
      (∀ line, lineTotal problem.rows problem.cols final.amounts.getOrZero line =
        lineTotal problem.rows problem.cols (Amounts.merged allocations).getOrZero line) ∧
      course.allocations =
        final.amounts.positiveAllocations.map (Allocation.map Number.integer) ∧
      course.totalCost = .integer (tableTotal problem.rows problem.cols fun cell =>
        problem.cost.price cell * shipped final.amounts.positiveAllocations cell) := by
  obtain ⟨first, begins, proper, amount⟩ := valid.startingPlan_eq_ok inTable
    (loopless_of_startingPlan Scalar.integer_embedding starts)
  obtain rfl := Except.ok.inj (starts.symm.trans begins)
  obtain ⟨record, follows, recorded⟩ :=
    refineFrom_follows valid tolerated limit limit.toNat 0 proper
  obtain rfl := Except.ok.inj (result.symm.trans follows)
  obtain ⟨final, price, certified, kept, listed, total⟩ := recorded.certified optimal
  refine ⟨final, price, certified, fun line => ?_, ?_, ?_⟩
  · rw [kept line, amount]
  · rw [← listed]
    rfl
  · rw [certified.proper.shipped_eq]
    exact congrArg Number.integer total

/-- The allocations that a refinement starts from are integers of the table; those of
the penalty rule use up all rows or all columns. -/
theorem initial_allocations (valid : problem.Valid)
    {initial : Option (List (Allocation Int))}
    (inTable : ∀ allocations, initial = some allocations → ∀ allocation ∈ allocations,
      allocation.cell.InTable problem.rows problem.cols)
    {given : List (Allocation Number)}
    (chosen : initialAllocations (problem.map Number.integer)
      (initial.map (List.map (Allocation.map Number.integer))) = .ok given) :
    ∃ allocations : List (Allocation Int),
      given = allocations.map (Allocation.map Number.integer) ∧
      (∀ allocation ∈ allocations,
        allocation.cell.InTable problem.rows problem.cols) ∧
      (initial = none → Ships problem.supply problem.demand allocations) := by
  obtain ⟨allocations, known, given, byDefault⟩ := valid.initialAllocations_eq_ok initial
  obtain rfl := Except.ok.inj (known.symm.trans chosen)
  refine ⟨allocations, rfl, ?_, fun omitted => (byDefault omitted).1⟩
  cases initial with
  | some listed => exact given listed rfl ▸ inTable listed rfl
  | none => exact (byDefault rfl).1.inTable

/-- A refinement of integers that claims to be optimal returns a plan that is the
cheapest among all plans with its line totals, fractions included.  When it starts from
the penalty rule and supply equals demand, its plan meets every quantity and is the
cheapest among all that do. -/
theorem refine_optimal_plan_is_cheapest (valid : problem.Valid)
    {initial : Option (List (Allocation Int))}
    (inTable : ∀ allocations, initial = some allocations → ∀ allocation ∈ allocations,
      allocation.cell.InTable problem.rows problem.cols)
    {limit : Int} {tolerance : Number} (tolerated : Tolerance tolerance)
    {course : Refinement Number}
    (result : (refine (problem.map Number.integer)
      (initial.map (List.map (Allocation.map Number.integer))) (.ok limit)
      (.ok tolerance)).result = .ok course)
    (optimal : course.optimal = true) :
    ∃ (plan : List (Allocation Int)) (total : Int),
      course.allocations = plan.map (Allocation.map Number.integer) ∧
      course.totalCost = .integer total ∧
      (∀ allocation ∈ plan, allocation.cell.InTable problem.rows problem.cols ∧
        0 < allocation.amount) ∧
      (total : Rat) = planCost problem (fun cell => shipped plan cell) ∧
      (∀ other, Meets problem.rows problem.cols
          (lineTotal problem.rows problem.cols (shipped plan)) other →
        (total : Rat) ≤ planCost problem other) ∧
      (initial = none → problem.supply.sum = problem.demand.sum →
        Meets problem.rows problem.cols (lineQuantity problem.supply problem.demand)
          (fun cell => shipped plan cell) ∧
        ∀ other, Meets problem.rows problem.cols
            (lineQuantity problem.supply problem.demand) other →
          (total : Rat) ≤ planCost problem other) := by
  rw [result_refine] at result
  obtain ⟨given, chosen, afterChoice⟩ := bind_eq_ok_iff.mp result
  obtain ⟨start, starts, refined⟩ := bind_eq_ok_iff.mp afterChoice
  obtain ⟨allocations, rfl, allocationsInTable, ships⟩ :=
    initial_allocations valid inTable chosen
  obtain ⟨final, price, certified, kept, listed, cost⟩ :=
    refine_certified valid tolerated allocationsInTable starts refined optimal
  have total : ((tableTotal problem.rows problem.cols fun cell =>
      problem.cost.price cell * shipped final.amounts.positiveAllocations cell : Int) : Rat) =
        planCost problem fun cell => shipped final.amounts.positiveAllocations cell := by
    rw [cast_tableTotal, planCost]
    simp only [Int.cast_mul]
  refine ⟨final.amounts.positiveAllocations, _, listed, cost, ?_, total, ?_, ?_⟩
  · intro allocation member
    obtain ⟨held, positive⟩ := Amounts.mem_positiveAllocations member
    exact ⟨certified.proper.tree.inTable _ ((certified.proper.mem_iff _).mp held), positive⟩
  · intro other meets
    rw [total]
    rw [certified.proper.shipped_eq] at meets ⊢
    exact certified.planCost_le meets
  · intro omitted balanced
    have met : ∀ line : Line, line.InTable problem.rows problem.cols →
        lineTotal problem.rows problem.cols final.amounts.getOrZero line =
          lineQuantity problem.supply problem.demand line := by
      intro line lineInTable
      have merged : (Amounts.merged allocations).getOrZero = shipped allocations :=
        funext fun cell => (Amounts.getOrZero_merged allocations cell).trans
          (max_eq_right ((ships omitted).shipped_nonneg cell))
      rw [kept line, merged]
      exact (ships omitted).meets balanced lineInTable
    rw [total, certified.proper.shipped_eq]
    refine ⟨⟨fun cell _ => ?_, fun line lineInTable => ?_⟩, fun other meets => ?_⟩
    · exact_mod_cast certified.proper.nonneg cell
    · rw [← met line lineInTable, cast_lineTotal]
    · refine certified.planCost_le ⟨meets.nonneg, fun line lineInTable => ?_⟩
      rw [meets.totals line lineInTable, met line lineInTable]

theorem square_refinement_is_cheapest :
    ∃ course : Refinement Number,
      (refine (Problem.map Number.integer ⟨[[4, 6], [2, 5]], [3, 4], [5, 2]⟩) none
        (.ok 100) (.ok (.integer 0))).result = .ok course ∧
      course.optimal = true ∧ ∃ total : Int, course.totalCost = .integer total ∧
        ∀ other, Meets 2 2 (lineQuantity [3, 4] [5, 2]) other →
          (total : Rat) ≤ planCost ⟨[[4, 6], [2, 5]], [3, 4], [5, 2]⟩ other := by
  let problem : Problem Int := ⟨[[4, 6], [2, 5]], [3, 4], [5, 2]⟩
  have valid : problem.Valid :=
    ⟨⟨rfl, by simp [problem, Problem.cols]⟩, by decide, by decide, by decide, by decide⟩
  have runs : (refine (problem.map Number.integer) none (.ok 100)
      (.ok (.integer 0))).result.map (·.optimal) = .ok true := by
    cbv
  cases result : (refine (problem.map Number.integer) none (.ok 100)
      (.ok (.integer 0))).result with
  | error fault =>
      rw [result] at runs
      cases runs
  | ok course =>
      rw [result] at runs
      have optimal : course.optimal = true := Except.ok.inj runs
      have inTable : ∀ allocations,
          (none : Option (List (Allocation Int))) = some allocations →
          ∀ allocation ∈ allocations,
            allocation.cell.InTable problem.rows problem.cols := by simp
      obtain ⟨_, total, _, cost, _, _, _, cheapest⟩ :=
        refine_optimal_plan_is_cheapest valid inTable ⟨by decide, by decide⟩ result optimal
      exact ⟨course, rfl, optimal, total, cost, (cheapest rfl (by decide)).2⟩

end Refine

end OptimalPlans.Transport
