import OptimalPlans.Proofs.Transport.InitialPlans
import OptimalPlans.Proofs.Transport.RefinementCourse

/-!
# Replay and descent

The record of a refinement can be replayed: shifting the recorded amount around the
recorded loop leads from the plan of one iteration to the plan of the next one.  The cost
changes by the amount times the reduced cost of the entering cell, so it never rises, and
falls with every pivot that shifts something.
-/

namespace OptimalPlans.Transport

/-- The plan of an iteration, and behind the last one the plan that is returned. -/
def Refinement.planAt {α : Type} (record : Refinement α) (index : Nat) : List (Allocation α) :=
  (record.iterations[index]?.map (·.allocations)).getD record.allocations

/-- The cost of an iteration, and behind the last one the cost that is returned. -/
def Refinement.totalAt {α : Type} (record : Refinement α) (index : Nat) : α :=
  (record.iterations[index]?.map (·.totalCost)).getD record.totalCost

section Cons

variable {α : Type} (first : Iteration α) (later : Refinement α) (index : Nat)

@[simp] theorem Refinement.planAt_cons_succ :
    (later.cons first).planAt (index + 1) = later.planAt index := rfl

@[simp] theorem Refinement.totalAt_cons_zero :
    (later.cons first).totalAt 0 = first.totalCost := rfl

@[simp] theorem Refinement.totalAt_cons_succ :
    (later.cons first).totalAt (index + 1) = later.totalAt index := rfl

end Cons

/-- A recorded pivot accounts for the plan and the cost that follow its iteration. -/
structure Pivot.Explains (pivot : Pivot Int) (iteration : Iteration Int)
    (nextPlan : List (Allocation Int)) (nextTotal : Int) : Prop where
  replays : replay pivot.theta pivot.loop (shipped iteration.allocations) = shipped nextPlan
  least : IsLeast {amount | ∃ step ∈ pivot.loop, step.sign = .minus ∧
    shipped iteration.allocations step.cell = amount} pivot.theta
  descends : ∃ reduced, iteration.reduced.entry pivot.entering = .ok (some reduced) ∧
    reduced ≤ -1 ∧ nextTotal = iteration.totalCost + pivot.theta * reduced

/-- Whether an iteration shifts something. -/
def Iteration.moves (iteration : Iteration Int) : Bool :=
  iteration.pivot.any fun pivot => 0 < pivot.theta

variable {problem : Problem Int}

/-- A shift changes the cost by the shifted amount times the reduced cost of the entering
cell. -/
theorem BasicPlan.Shifts.planTotal_eq {plan next : BasicPlan Int} {pivot : Pivot Int}
    (shifts : plan.Shifts pivot next) (proper : plan.Proper problem.rows problem.cols)
    (inTable : pivot.entering.InTable problem.rows problem.cols) {price : Line → Int}
    (prices : Prices problem.cost plan.basis price) :
    planTotal problem next.amounts.getOrZero = planTotal problem plan.amounts.getOrZero +
      pivot.theta * reducedPrice problem.cost price pivot.entering := by
  have around : tableTotal problem.rows problem.cols (fun cell =>
      problem.cost.price cell * loopWeight pivot.loop cell) =
        reducedPrice problem.cost price pivot.entering := by
    obtain ⟨cells, closes, loop⟩ := shifts.closes
    rw [tableTotal_loopWeight (shifts.loop_inTable proper inTable), loop]
    exact closes.signedSum_cost prices
  have parts : (fun cell => problem.cost.price cell * next.amounts.getOrZero cell) = fun cell =>
      problem.cost.price cell * plan.amounts.getOrZero cell +
        pivot.theta * (problem.cost.price cell * loopWeight pivot.loop cell) := by
    funext cell
    rw [shifts.amount]
    ring
  rw [planTotal, parts, tableTotal_add, tableTotal_mul, around]
  rfl

/-- A shift to a cell that costs less than its lines are worth lowers the cost, unless it
shifts nothing. -/
theorem BasicPlan.Shifts.planTotal_add_le {plan next : BasicPlan Int} {pivot : Pivot Int}
    (shifts : plan.Shifts pivot next) (proper : plan.Proper problem.rows problem.cols)
    (inTable : pivot.entering.InTable problem.rows problem.cols) {price : Line → Int}
    (prices : Prices problem.cost plan.basis price)
    (negative : reducedPrice problem.cost price pivot.entering < 0) :
    planTotal problem next.amounts.getOrZero + (if 0 < pivot.theta then 1 else 0) ≤
      planTotal problem plan.amounts.getOrZero := by
  have nonneg := shifts.theta_nonneg proper
  rw [shifts.planTotal_eq proper inTable prices]
  split
  next moves =>
      have gain : pivot.theta * reducedPrice problem.cost price pivot.entering ≤ 1 * -1 :=
        mul_le_mul_of_nonneg_of_nonpos (by omega) (by omega) (by omega) (by omega)
      omega
  next rests =>
      have zero : pivot.theta = 0 := by omega
      rw [zero, zero_mul, add_zero, add_zero]

/-- A shift to such a cell accounts for the plan and the cost that follow. -/
theorem BasicPlan.Shifts.explains (valid : problem.Valid) {plan next : BasicPlan Int}
    {pivot : Pivot Int} (shifts : plan.Shifts pivot next)
    (proper : plan.Proper problem.rows problem.cols)
    (nextProper : next.Proper problem.rows problem.cols)
    (inTable : pivot.entering.InTable problem.rows problem.cols) {price : Line → Int}
    (prices : Prices problem.cost plan.basis price)
    (negative : reducedPrice problem.cost price pivot.entering < 0) (step : Nat) :
    pivot.Explains (snapshot problem step plan price (some pivot))
      next.amounts.positiveAllocations (planTotal problem next.amounts.getOrZero) := by
  have current : shipped (snapshot problem step plan price (some pivot)).allocations =
      plan.amounts.getOrZero := proper.shipped_eq
  refine ⟨?_, ?_, reducedPrice problem.cost price pivot.entering, ?_, by omega, ?_⟩
  · rw [current, nextProper.shipped_eq]
    funext cell
    rw [replay_eq, shifts.amount]
  · rw [current]
    exact shifts.least
  · apply Table.entry_of_mem_entries
    exact (mem_entries_reducedTable valid.shaped).mpr ⟨inTable, rfl⟩
  · exact shifts.planTotal_eq proper inTable prices

namespace Course

variable {budget step : Nat} {plan : BasicPlan Int} {record : Refinement Int}

theorem proper (course : Course problem budget step plan record) :
    plan.Proper problem.rows problem.cols := by
  cases course with
  | stopped proper => exact proper
  | settled ties certified => exact certified.proper
  | pivoted proper => exact proper

/-- A course begins with the plan it starts from. -/
theorem begins (course : Course problem budget step plan record) :
    record.planAt 0 = plan.amounts.positiveAllocations ∧
      record.totalAt 0 = planTotal problem plan.amounts.getOrZero := by
  cases course <;> exact ⟨rfl, rfl⟩

theorem length_le (course : Course problem budget step plan record) :
    record.iterations.length ≤ budget := by
  induction course with
  | stopped => exact le_rfl
  | settled => simp
  | pivoted _ _ _ _ _ _ induction => simpa using induction

theorem step_eq (course : Course problem budget step plan record) {index : Nat}
    {iteration : Iteration Int} (found : record.iterations[index]? = some iteration) :
    iteration.step = step + index := by
  induction course generalizing index with
  | stopped => simp at found
  | settled =>
      obtain ⟨bound, rfl⟩ := List.getElem?_eq_some_iff.mp found
      obtain rfl : index = 0 := by simpa using bound
      rfl
  | pivoted _ _ _ _ _ _ induction =>
      cases index with
      | zero =>
          obtain rfl := Option.some.inj found
          rfl
      | succ index =>
          rw [induction found]
          omega

/-- Every recorded plan lists distinct cells of the table with positive amounts, and its
recorded cost is what it costs. -/
theorem plan_holds (course : Course problem budget step plan record) (index : Nat) :
    ((record.planAt index).map (·.cell)).Nodup ∧
      (∀ allocation ∈ record.planAt index,
        allocation.cell.InTable problem.rows problem.cols ∧ 0 < allocation.amount) ∧
      record.totalAt index = planTotal problem (shipped (record.planAt index)) := by
  have listed : ∀ {plan : BasicPlan Int}, plan.Proper problem.rows problem.cols →
      (plan.amounts.positiveAllocations.map (·.cell)).Nodup ∧
        (∀ allocation ∈ plan.amounts.positiveAllocations,
          allocation.cell.InTable problem.rows problem.cols ∧ 0 < allocation.amount) ∧
        planTotal problem plan.amounts.getOrZero =
          planTotal problem (shipped plan.amounts.positiveAllocations) := by
    intro plan proper
    refine ⟨Amounts.nodup_positiveAllocations proper.nodup, fun allocation member => ?_, ?_⟩
    · exact ⟨proper.positive_eq_ok.2 allocation member,
        (Amounts.mem_positiveAllocations member).2⟩
    · rw [proper.shipped_eq]
  induction course generalizing index with
  | stopped proper => exact listed proper
  | settled ties certified =>
      cases index with
      | zero => exact listed certified.proper
      | succ index => exact listed certified.proper
  | pivoted proper _ _ _ _ _ induction =>
      cases index with
      | zero => exact listed proper
      | succ index => exact induction index

/-- Every recorded pivot accounts for what follows. -/
theorem explains (valid : problem.Valid) (course : Course problem budget step plan record)
    {index : Nat} {iteration : Iteration Int} {pivot : Pivot Int}
    (found : record.iterations[index]? = some iteration)
    (pivots : iteration.pivot = some pivot) :
    pivot.Explains iteration (record.planAt (index + 1)) (record.totalAt (index + 1)) := by
  induction course generalizing index with
  | stopped => simp at found
  | settled =>
      obtain ⟨bound, rfl⟩ := List.getElem?_eq_some_iff.mp found
      obtain rfl : index = 0 := by simpa using bound
      cases pivots
  | pivoted proper prices inTable negative shifts later induction =>
      cases index with
      | zero =>
          obtain rfl := Option.some.inj found
          obtain rfl := Option.some.inj pivots
          rw [Refinement.planAt_cons_succ, Refinement.totalAt_cons_succ, later.begins.1,
            later.begins.2]
          exact shifts.explains valid proper later.proper inTable prices negative _
      | succ index => exact induction found

/-- No iteration raises the cost. -/
theorem totalAt_succ_le (course : Course problem budget step plan record) (index : Nat) :
    record.totalAt (index + 1) ≤ record.totalAt index := by
  induction course generalizing index with
  | stopped => exact le_rfl
  | settled =>
      cases index with
      | zero => exact le_rfl
      | succ index => exact le_rfl
  | pivoted proper prices inTable negative shifts later induction =>
      cases index with
      | zero =>
          have lower := shifts.planTotal_add_le proper inTable prices negative
          rw [Refinement.totalAt_cons_succ, Refinement.totalAt_cons_zero, later.begins.2,
            snapshot_totalCost]
          split at lower <;> omega
      | succ index => exact induction index

/-- The cost falls by at least one with every pivot that shifts something. -/
theorem countP_moves_le (course : Course problem budget step plan record) :
    (record.iterations.countP Iteration.moves : Int) ≤ record.totalAt 0 - record.totalCost := by
  induction course with
  | stopped => simp [Refinement.totalAt]
  | settled => simp [Refinement.totalAt, Iteration.moves]
  | pivoted proper prices inTable negative shifts later induction =>
      have lower := shifts.planTotal_add_le proper inTable prices negative
      rw [later.begins.2] at induction
      rw [Refinement.totalAt_cons_zero, Refinement.iterations_cons, List.countP_cons,
        Refinement.totalCost_cons, snapshot_totalCost, Iteration.moves, snapshot_pivot]
      simp only [Option.any_some, decide_eq_true_eq]
      split at lower
      next moves =>
          rw [if_pos moves]
          omega
      next rests =>
          rw [if_neg rests]
          omega

/-- A course does not claim to be optimal exactly where it uses up its budget and every
iteration pivots. -/
theorem optimal_eq_false_iff (course : Course problem budget step plan record) :
    record.optimal = false ↔ record.iterations.length = budget ∧
      ∀ iteration ∈ record.iterations, iteration.pivot.isSome := by
  induction course with
  | stopped => simp
  | settled => simp
  | pivoted _ _ _ _ _ _ induction => simp [induction]

end Course

/-- A refinement of integers, from allocations without a loop or by default from the penalty
rule, takes at most as many iterations as it may and numbers them from zero.  Each pivot
shifts the smallest amount on the losing cells of its loop, which leads from the plan of
its iteration to the next plan, and changes the cost by that amount times the reduced cost
of the entering cell, which is negative.  So the cost never rises above that of the
allocations it starts from, no more pivots shift something than the cost falls by, and the
plan is not called optimal exactly where all iterations were taken and all of them pivot. -/
theorem refinement_replays_and_descends (valid : problem.Valid)
    {initial : Option (List (Allocation Int))}
    (basic : ∀ allocations, initial = some allocations →
      (∀ allocation ∈ allocations, allocation.cell.InTable problem.rows problem.cols) ∧
        Loopless (Amounts.merged allocations).cells)
    (limit : Nat) {tolerance : Number} (tolerated : Tolerance tolerance) :
    ∃ (start : List (Allocation Int)) (first : Int) (record : Refinement Int),
      initialAllocations (problem.map Number.integer)
        (initial.map (List.map (Allocation.map Number.integer))) =
          .ok (start.map (Allocation.map Number.integer)) ∧
      totalCost (problem.map Number.integer).cost
        (start.map (Allocation.map Number.integer)) = .ok (.integer first) ∧
      (refine (problem.map Number.integer)
        (initial.map (List.map (Allocation.map Number.integer))) (.ok limit)
        (.ok tolerance)).result = .ok (record.map Number.integer) ∧
      record.iterations.length ≤ limit ∧
      (∀ (index : Nat) (iteration : Iteration Int),
        record.iterations[index]? = some iteration → iteration.step = index ∧
          ∀ pivot, iteration.pivot = some pivot →
            pivot.Explains iteration (record.planAt (index + 1)) (record.totalAt (index + 1))) ∧
      (∀ index, ((record.planAt index).map (·.cell)).Nodup ∧
        (∀ allocation ∈ record.planAt index,
          allocation.cell.InTable problem.rows problem.cols ∧ 0 < allocation.amount) ∧
        record.totalAt index = planTotal problem (shipped (record.planAt index)) ∧
        record.totalAt (index + 1) ≤ record.totalAt index) ∧
      (∀ cell, shipped (record.planAt 0) cell = max 0 (shipped start cell)) ∧
      ((∀ cell, 0 ≤ shipped start cell) →
        record.totalAt 0 = first ∧ record.totalCost ≤ first) ∧
      (initial = none → ∀ cell, 0 ≤ shipped start cell) ∧
      (record.iterations.countP Iteration.moves : Int) ≤
        record.totalAt 0 - record.totalCost ∧
      (record.optimal = false ↔ record.iterations.length = limit ∧
        ∀ iteration ∈ record.iterations, iteration.pivot.isSome) := by
  obtain ⟨start, chosen, given, byDefault⟩ := valid.initialAllocations_eq_ok initial
  have known : (∀ allocation ∈ start,
      allocation.cell.InTable problem.rows problem.cols) ∧
        Loopless (Amounts.merged start).cells := by
    cases initial with
    | some allocations => exact given allocations rfl ▸ basic allocations rfl
    | none => exact ⟨(byDefault rfl).1.inTable, (byDefault rfl).2⟩
  obtain ⟨inTable, loopless⟩ := known
  obtain ⟨plan, starts, proper, amount⟩ := valid.startingPlan_eq_ok inTable loopless
  obtain ⟨record, result, course⟩ :=
    refineFrom_follows valid tolerated limit limit 0 proper
  -- The first record lists the merged allocations, which leave out what is not positive.
  have opening : ∀ cell, shipped (record.planAt 0) cell = max 0 (shipped start cell) := by
    intro cell
    rw [course.begins.1, proper.shipped_eq, amount, Amounts.getOrZero_merged]
  have counted := course.countP_moves_le
  refine ⟨start, planTotal problem (shipped start), record, chosen,
    valid.totalCost_map_eq_ok inTable, ?_, course.length_le, ?_, ?_, opening, ?_,
    fun omitted => (byDefault omitted).1.shipped_nonneg, counted, course.optimal_eq_false_iff⟩
  · rw [result_refine, chosen, ok_bind, starts]
    exact result
  · intro index iteration found
    have numbered := course.step_eq found
    exact ⟨by omega, fun pivot pivots => course.explains valid found pivots⟩
  · intro index
    obtain ⟨nodup, listed, total⟩ := course.plan_holds index
    exact ⟨nodup, listed, total, course.totalAt_succ_le index⟩
  · intro startNonneg
    have same : shipped (record.planAt 0) = shipped start := by
      funext cell
      rw [opening, max_eq_right (startNonneg cell)]
    have total := (course.plan_holds 0).2.2
    rw [same] at total
    exact ⟨total, by omega⟩

theorem square_refinement_descends :
    ∃ record : Refinement Int,
      (refine (Problem.map Number.integer ⟨[[4, 6], [2, 5]], [3, 4], [5, 2]⟩)
        (some [⟨⟨0, 0⟩, .integer 3⟩, ⟨⟨1, 0⟩, .integer 2⟩, ⟨⟨1, 1⟩, .integer 2⟩]) (.ok 1)
        (.ok (.integer 0))).result = .ok (record.map Number.integer) ∧
      record.iterations.length ≤ 1 ∧
      ∀ index, record.totalAt (index + 1) ≤ record.totalAt index := by
  let problem : Problem Int := ⟨[[4, 6], [2, 5]], [3, 4], [5, 2]⟩
  let allocations : List (Allocation Int) :=
    [⟨⟨0, 0⟩, 3⟩, ⟨⟨1, 0⟩, 2⟩, ⟨⟨1, 1⟩, 2⟩]
  have valid : problem.Valid := by
    refine ⟨⟨rfl, ?_⟩, by decide, by decide, ?_, ?_⟩ <;> simp [problem, Problem.cols]
  have accepted : acyclic (Amounts.merged allocations).cells =
      .ok (Amounts.merged allocations).cells := by
    cbv
  have basic : ∀ listed, some allocations = some listed →
      (∀ allocation ∈ listed, allocation.cell.InTable problem.rows problem.cols) ∧
        Loopless (Amounts.merged listed).cells := by
    rintro _ ⟨⟩
    refine ⟨?_, (acyclic_eq_ok_iff.mp accepted).2.1⟩
    simp [allocations, Cell.InTable, problem, Problem.rows, Problem.cols]
  have tolerated : Tolerance (.integer 0) := ⟨by decide, by decide⟩
  obtain ⟨_, _, record, _, _, result, length, _, recorded, _⟩ :=
    refinement_replays_and_descends valid basic 1 tolerated
  exact ⟨record, result, length, fun index => (recorded index).2.2.2⟩

end OptimalPlans.Transport
