import OptimalPlans.Proofs.Transport.Descent
import OptimalPlans.Proofs.Transport.OptimalityCertificate

/-!
# Restarting from an optimal plan

A refinement that starts from a plan it has called optimal ends with the same plan at the
same cost.  Allocations leave out basic cells that ship nothing, so the restart may complete
another basis, whose prices need not certify the plan at once; it then pivots, but no pivot
shifts anything.  A plan with an amount in every basic cell is certified at once.
-/

namespace OptimalPlans.Transport

/-! ## The list of a plan -/

namespace Cell

theorem le_iff {left right : Cell} :
    left.le right = true ↔ left.row < right.row ∨ left.row = right.row ∧ left.col ≤ right.col := by
  simp [le]

theorem le_antisymm {left right : Cell} (below : left.le right = true)
    (above : right.le left = true) : left = right := by
  obtain ⟨row, col⟩ := left
  obtain ⟨otherRow, otherCol⟩ := right
  simp only [le_iff, Cell.mk.injEq] at below above ⊢
  omega

end Cell

namespace Amounts

variable {amounts : Amounts Int}

/-- Exactly what is shipped is listed. -/
theorem mem_positiveAllocations_iff (nodup : amounts.cells.Nodup)
    {allocation : Allocation Int} :
    allocation ∈ amounts.positiveAllocations ↔
      amounts.getOrZero allocation.cell = allocation.amount ∧ 0 < allocation.amount := by
  have sorted : ∀ entry, entry ∈ sort amounts ↔ entry ∈ amounts := fun _ =>
    (List.mergeSort_perm amounts _).mem_iff
  constructor
  · intro member
    obtain ⟨entry, kept, rfl⟩ := List.mem_map.mp member
    obtain ⟨held, positive⟩ := List.mem_filter.mp kept
    exact ⟨getOrZero_of_mem nodup ((sorted entry).mp held), by simpa using positive⟩
  · rintro ⟨same, positive⟩
    have listed : allocation.cell ∈ amounts.cells := by
      by_contra absent
      rw [getOrZero_of_absent absent] at same
      omega
    obtain ⟨entry, held, cell⟩ := List.mem_map.mp listed
    have amount : entry.2 = allocation.amount := by
      rw [← same, ← cell, getOrZero_of_mem nodup held]
    refine List.mem_map.mpr ⟨entry, List.mem_filter.mpr ⟨(sorted entry).mpr held, ?_⟩, ?_⟩
    · simpa [amount] using positive
    · rw [cell, amount]

theorem pairwise_positiveAllocations (amounts : Amounts Int) :
    amounts.positiveAllocations.Pairwise fun left right => left.cell.le right.cell = true := by
  have sorted : (sort amounts).Pairwise fun left right => left.1.le right.1 = true := by
    apply List.pairwise_mergeSort
    · intro first second third
      simp only [Cell.le_iff]
      omega
    · intro first second
      simp only [Bool.or_eq_true, Cell.le_iff]
      omega
  exact List.pairwise_map.mpr (sorted.filter _)

/-- What is shipped determines the list. -/
theorem positiveAllocations_congr {others : Amounts Int} (nodup : amounts.cells.Nodup)
    (othersNodup : others.cells.Nodup) (same : amounts.getOrZero = others.getOrZero) :
    amounts.positiveAllocations = others.positiveAllocations := by
  have distinct : amounts.positiveAllocations.Nodup :=
    (nodup_positiveAllocations nodup).of_map
  have permutation : amounts.positiveAllocations.Perm others.positiveAllocations := by
    rw [List.perm_ext_iff_of_nodup distinct (nodup_positiveAllocations othersNodup).of_map]
    intro allocation
    rw [mem_positiveAllocations_iff nodup, mem_positiveAllocations_iff othersNodup, same]
  refine permutation.eq_of_pairwise ?_ (pairwise_positiveAllocations amounts)
    (pairwise_positiveAllocations others)
  intro left right leftMember rightMember below above
  have cell := Cell.le_antisymm below above
  have leftHeld := ((mem_positiveAllocations_iff nodup).mp leftMember).1
  have rightHeld := ((mem_positiveAllocations_iff othersNodup).mp rightMember).1
  obtain ⟨leftCell, leftAmount⟩ := left
  obtain ⟨rightCell, rightAmount⟩ := right
  dsimp only at cell leftHeld rightHeld
  rw [← leftHeld, ← rightHeld, cell, same]

end Amounts

/-! ## Plans that cannot be cheapened -/

/-- No plan of whole amounts with the same line totals is cheaper. -/
def Minimal (problem : Problem Int) (amount : Cell → Int) : Prop :=
  ∀ other : Cell → Int, (∀ cell, 0 ≤ other cell) →
    (∀ line, lineTotal problem.rows problem.cols other line =
      lineTotal problem.rows problem.cols amount line) →
    planTotal problem amount ≤ planTotal problem other

section Rest

variable {problem : Problem Int} {plan next : BasicPlan Int}

theorem Certified.minimal {price : Line → Int} (certified : Certified problem plan price) :
    Minimal problem plan.amounts.getOrZero := by
  intro other nonneg totals
  have meets : Meets problem.rows problem.cols
      (lineTotal problem.rows problem.cols plan.amounts.getOrZero)
      fun cell => (other cell : Rat) := by
    refine ⟨fun cell _ => by exact_mod_cast nonneg cell, fun line _ => ?_⟩
    rw [← cast_lineTotal, totals]
  have bound := certified.planCost_le meets
  rw [← cast_planTotal, ← cast_planTotal] at bound
  exact_mod_cast bound

/-- A pivot that would cheapen a minimal plan shifts nothing. -/
theorem BasicPlan.Shifts.rests {pivot : Pivot Int} (shifts : plan.Shifts pivot next)
    (proper : plan.Proper problem.rows problem.cols)
    (nextProper : next.Proper problem.rows problem.cols)
    (inTable : pivot.entering.InTable problem.rows problem.cols) {price : Line → Int}
    (prices : Prices problem.cost plan.basis price)
    (negative : reducedPrice problem.cost price pivot.entering < 0)
    (minimal : Minimal problem plan.amounts.getOrZero) :
    pivot.theta = 0 ∧ next.amounts.getOrZero = plan.amounts.getOrZero := by
  have nonneg := shifts.theta_nonneg proper
  have lower := shifts.planTotal_add_le proper inTable prices negative
  have bound := minimal next.amounts.getOrZero nextProper.nonneg
    (shifts.lineTotal_eq proper inTable)
  have zero : pivot.theta = 0 := by
    split at lower <;> omega
  refine ⟨zero, funext fun cell => ?_⟩
  rw [shifts.amount, zero, zero_mul, add_zero]

namespace Course

variable {budget step : Nat} {record : Refinement Int}

/-- A course from a minimal plan stays at that plan. -/
theorem rests (course : Course problem budget step plan record)
    (minimal : Minimal problem plan.amounts.getOrZero) :
    record.allocations = plan.amounts.positiveAllocations ∧
    record.totalCost = planTotal problem plan.amounts.getOrZero ∧
    ∀ iteration ∈ record.iterations,
      iteration.allocations = plan.amounts.positiveAllocations ∧
      iteration.totalCost = planTotal problem plan.amounts.getOrZero ∧
      ∀ pivot, iteration.pivot = some pivot → pivot.theta = 0 := by
  induction course with
  | stopped => exact ⟨rfl, rfl, by simp⟩
  | settled => exact ⟨rfl, rfl, by simp [snapshot]⟩
  | pivoted proper prices inTable negative shifts later induction =>
      obtain ⟨zero, same⟩ :=
        shifts.rests proper later.proper inTable prices negative minimal
      have listed := Amounts.positiveAllocations_congr later.proper.nodup proper.nodup same
      rw [same, listed] at induction
      obtain ⟨allocations, total, iterations⟩ := induction minimal
      refine ⟨allocations, total, fun iteration member => ?_⟩
      rcases List.mem_cons.mp member with rfl | member
      · refine ⟨rfl, rfl, fun pivot pivots => ?_⟩
        obtain rfl := Option.some.inj pivots
        exact zero
      · exact iterations iteration member

/-- A course from a minimal plan that ships something in every basic cell is settled by its
first iteration. -/
theorem settles (course : Course problem budget step plan record)
    (minimal : Minimal problem plan.amounts.getOrZero)
    (full : ∀ cell ∈ plan.basis, 0 < plan.amounts.getOrZero cell) (some : 0 < budget) :
    record.optimal = true ∧
      ∃ iteration, record.iterations = [iteration] ∧ iteration.pivot = none := by
  cases course with
  | stopped => exact absurd some (lt_irrefl 0)
  | settled => exact ⟨rfl, _, rfl, rfl⟩
  | pivoted proper prices inTable negative shifts later =>
      obtain ⟨zero, _⟩ := shifts.rests proper later.proper inTable prices negative minimal
      obtain ⟨cells, closes, loop⟩ := shifts.closes
      obtain ⟨step, member, loses, held⟩ := shifts.least.1
      rw [loop] at member
      have positive := full step.cell (closes.within (ClosesLoop.mem_of_minus member loses))
      omega

end Course

/-- A proper plan that lists one cell less than there are lines ships something in every
basic cell. -/
theorem BasicPlan.Proper.full {rows cols : Nat} (proper : plan.Proper rows cols)
    (positive : 0 < rows)
    (counted : plan.amounts.positiveAllocations.length + 1 = rows + cols) :
    ∀ cell ∈ plan.basis, 0 < plan.amounts.getOrZero cell := by
  have listed : plan.amounts.positiveAllocations.map (·.cell) ⊆ plan.basis := by
    intro cell member
    obtain ⟨allocation, shipping, rfl⟩ := List.mem_map.mp member
    exact (proper.mem_iff _).mp (Amounts.mem_positiveAllocations shipping).1
  have counts := proper.tree.length_add_one positive
  have permutation : (plan.amounts.positiveAllocations.map (·.cell)).Perm plan.basis := by
    refine ((Amounts.nodup_positiveAllocations proper.nodup).subperm listed).perm_of_length_le ?_
    rw [List.length_map]
    omega
  intro cell basic
  obtain ⟨allocation, shipping, rfl⟩ := List.mem_map.mp (permutation.mem_iff.mpr basic)
  obtain ⟨held, amount⟩ := (Amounts.mem_positiveAllocations_iff proper.nodup).mp shipping
  exact held ▸ amount

/-- Allocations of a certified plan, as a restart takes them, start a proper plan that ships
the same. -/
theorem Certified.startingPlan_eq_ok (valid : problem.Valid) {price : Line → Int}
    (certified : Certified problem plan price) :
    ∃ start : BasicPlan Int,
      (startingPlan (problem.map Number.integer)
        (plan.amounts.positiveAllocations.map (Allocation.map Number.integer))).result =
          .ok (start.map Number.integer) ∧
      start.Proper problem.rows problem.cols ∧
      start.amounts.getOrZero = plan.amounts.getOrZero := by
  have proper := certified.proper
  have basic : ∀ allocation ∈ plan.amounts.positiveAllocations, allocation.cell ∈ plan.basis :=
    fun allocation member => (proper.mem_iff _).mp (Amounts.mem_positiveAllocations member).1
  have loopless : Loopless (Amounts.merged plan.amounts.positiveAllocations).cells := by
    refine proper.tree.loopless.mono fun cell member => ?_
    obtain ⟨allocation, listed, rfl⟩ := Amounts.mem_cells_merged member
    exact basic allocation listed
  obtain ⟨start, begins, startProper, amount⟩ := valid.startingPlan_eq_ok
    (fun allocation member => proper.tree.inTable _ (basic allocation member)) loopless
  refine ⟨start, begins, startProper, ?_⟩
  rw [amount]
  funext cell
  rw [Amounts.getOrZero_merged, proper.shipped_eq, max_eq_right (proper.nonneg cell)]

/-- A refinement of integers that restarts from the plan of one that claims to be optimal
succeeds, whatever its limit is.  Every plan it records is that plan, at that cost, and no
pivot shifts anything.  If the plan ships in one cell less than there are lines and the
restart may take an iteration, the first one settles it. -/
theorem restart_keeps_optimal_plan (valid : problem.Valid)
    {initial : Option (List (Allocation Int))}
    (inTable : ∀ allocations, initial = some allocations → ∀ allocation ∈ allocations,
      allocation.cell.InTable problem.rows problem.cols)
    {limit : Int} {tolerance : Number} (tolerated : Tolerance tolerance)
    {first : Refinement Number}
    (result : (refine (problem.map Number.integer)
      (initial.map (List.map (Allocation.map Number.integer))) (.ok limit)
      (.ok tolerance)).result = .ok first)
    (optimal : first.optimal = true) (again : Int) :
    ∃ second, (refine (problem.map Number.integer) (some first.allocations) (.ok again)
        (.ok tolerance)).result = .ok second ∧
      second.allocations = first.allocations ∧ second.totalCost = first.totalCost ∧
      (∀ iteration ∈ second.iterations,
        iteration.allocations = first.allocations ∧ iteration.totalCost = first.totalCost ∧
        ∀ pivot, iteration.pivot = some pivot → pivot.theta = .integer 0) ∧
      (0 < again → first.allocations.length + 1 = problem.rows + problem.cols →
        second.optimal = true ∧
          ∃ iteration, second.iterations = [iteration] ∧ iteration.pivot = none) := by
  rw [result_refine] at result
  obtain ⟨given, chosen, afterChoice⟩ := bind_eq_ok_iff.mp result
  obtain ⟨start, starts, refined⟩ := bind_eq_ok_iff.mp afterChoice
  obtain ⟨allocations, rfl, allocationsInTable, _⟩ :=
    initial_allocations valid inTable chosen
  obtain ⟨final, price, certified, _, listed, cost⟩ :=
    refine_certified valid tolerated allocationsInTable starts refined optimal
  obtain ⟨restart, restarts, proper, same⟩ := certified.startingPlan_eq_ok valid
  have minimal : Minimal problem restart.amounts.getOrZero := same ▸ certified.minimal
  obtain ⟨record, follows, course⟩ :=
    refineFrom_follows valid tolerated again again.toNat 0 proper
  obtain ⟨recordAllocations, recordTotal, recordIterations⟩ := course.rests minimal
  have plan : restart.amounts.positiveAllocations.map (Allocation.map Number.integer) =
      first.allocations := by
    rw [listed, Amounts.positiveAllocations_congr proper.nodup certified.proper.nodup same]
  have total : Number.integer (planTotal problem restart.amounts.getOrZero) =
      first.totalCost := by
    rw [cost, certified.proper.shipped_eq, same]
    rfl
  refine ⟨record.map Number.integer, ?_, ?_, ?_, ?_, fun positive counted => ?_⟩
  · rw [result_refine, listed, initialAllocations, ok_bind, restarts, ok_bind, ok_bind, follows]
  · rw [← plan, ← recordAllocations]
    rfl
  · rw [← total, ← recordTotal]
    rfl
  · intro iteration member
    obtain ⟨source, sourceMember, rfl⟩ := List.mem_map.mp member
    obtain ⟨sourceAllocations, sourceTotal, rests⟩ := recordIterations source sourceMember
    refine ⟨?_, ?_, fun pivot pivots => ?_⟩
    · rw [← plan, ← sourceAllocations]
      rfl
    · rw [← total, ← sourceTotal]
      rfl
    · obtain ⟨held, found, rfl⟩ := Option.map_eq_some_iff.mp pivots
      exact congrArg Number.integer (rests held found)
  · have full := proper.full valid.rows_pos (by simpa [← plan] using counted)
    obtain ⟨settled, iteration, only, rests⟩ :=
      course.settles minimal full (Int.lt_toNat.mpr positive)
    refine ⟨settled, iteration.map Number.integer, ?_, ?_⟩
    · exact congrArg (List.map (Iteration.map Number.integer)) only
    · exact congrArg (Option.map (Pivot.map Number.integer)) rests

theorem square_restart_settles :
    ∃ first second : Refinement Number,
      (refine (Problem.map Number.integer ⟨[[4, 6], [2, 5]], [3, 4], [5, 2]⟩) none
        (.ok 100) (.ok (.integer 0))).result = .ok first ∧
      (refine (Problem.map Number.integer ⟨[[4, 6], [2, 5]], [3, 4], [5, 2]⟩)
        (some first.allocations) (.ok 1) (.ok (.integer 0))).result = .ok second ∧
      second.allocations = first.allocations ∧ second.optimal = true := by
  let problem : Problem Int := ⟨[[4, 6], [2, 5]], [3, 4], [5, 2]⟩
  have valid : problem.Valid :=
    ⟨⟨rfl, by simp [problem, Problem.cols]⟩, by decide, by decide, by decide, by decide⟩
  have runs : (refine (problem.map Number.integer) none (.ok 100)
      (.ok (.integer 0))).result.map (fun first => (first.optimal, first.allocations.length)) =
        .ok (true, 3) := by
    cbv
  cases result : (refine (problem.map Number.integer) none (.ok 100)
      (.ok (.integer 0))).result with
  | error fault =>
      rw [result] at runs
      cases runs
  | ok first =>
      rw [result, map_ok, Except.ok.injEq, Prod.mk.injEq] at runs
      have inTable : ∀ allocations,
          (none : Option (List (Allocation Int))) = some allocations →
          ∀ allocation ∈ allocations,
            allocation.cell.InTable problem.rows problem.cols := by simp
      obtain ⟨second, again, allocations, _, _, settled⟩ :=
        restart_keeps_optimal_plan valid inTable ⟨by decide, by decide⟩ result runs.1 1
      have counted : first.allocations.length + 1 = problem.rows + problem.cols := by
        rw [runs.2]
        rfl
      exact ⟨first, second, rfl, again, allocations, (settled (by decide) counted).1⟩

end Rest

/-! ## A degenerate plan -/

/-- Two suppliers and three customers, where the first supplier and the third customer have
the same quantity. -/
def degenerateProblem : Problem Int :=
  ⟨[[0, 0, 0], [0, 1, 2]], [1, 2], [1, 1, 1]⟩

/-- The plan of the penalty rule for the degenerate problem uses one cell too few for a
basis, and the one that completes it does not price the plan as optimal.  The refinement
exchanges it without shifting anything, and returns the allocations it started from. -/
theorem degenerate_refinement_pivots :
    ∃ record : Refinement Number,
      initialAllocations (degenerateProblem.map Number.integer) none =
        .ok record.allocations ∧
      (refine (degenerateProblem.map Number.integer) (some record.allocations)
        (.ok defaultLimit) (.ok defaultTolerance)).result = .ok record ∧
      record.optimal = true ∧ record.iterations.length = 2 := by
  let problem : Problem Number := degenerateProblem.map Number.integer
  let allocations : List (Allocation Number) :=
    [⟨⟨0, 2⟩, .integer 1⟩, ⟨⟨1, 0⟩, .integer 1⟩, ⟨⟨1, 1⟩, .integer 1⟩]
  have rule : initialAllocations problem none = .ok allocations := by cbv
  have costs : totalCost problem.cost allocations = .ok (.integer 1) := by cbv
  -- The first basis is completed by the cell that is cheapest, not by the one that fits.
  let first : BasicPlan Number :=
    ⟨[⟨0, 2⟩, ⟨1, 0⟩, ⟨1, 1⟩, ⟨0, 0⟩],
      [(⟨0, 2⟩, .integer 1), (⟨1, 0⟩, .integer 1), (⟨1, 1⟩, .integer 1),
        (⟨0, 0⟩, .integer 0)]⟩
  let firstPrices : Potentials Number :=
    ⟨[some (.integer 0), some (.integer 0)],
      [some (.integer 0), some (.integer 1), some (.integer 0)]⟩
  let firstReduced : Table (Option Number) :=
    [[some (.integer 0), some (.integer (-1)), some (.integer 0)],
      [some (.integer 0), some (.integer 0), some (.integer 2)]]
  let pivot : Pivot Number :=
    ⟨⟨0, 1⟩, [⟨⟨0, 1⟩, .plus⟩, ⟨⟨0, 0⟩, .minus⟩, ⟨⟨1, 0⟩, .plus⟩, ⟨⟨1, 1⟩, .minus⟩],
      .integer 0, some ⟨0, 0⟩⟩
  have starts : (startingPlan problem allocations).result = .ok first := by cbv
  have firstPriced : Potentials.ofBasis problem.cost first.basis problem.rows problem.cols =
      .ok firstPrices := by cbv
  have firstReduces : firstPrices.reducedCosts problem.cost = .ok firstReduced := by cbv
  have enters : enteringCell firstReduced first.basis defaultTolerance =
      .ok (some ⟨0, 1⟩) := by decide +kernel
  have firstLists : first.amounts.positive = .ok allocations := by cbv
  have pivotFound : pivotFor first ⟨0, 1⟩ = .ok pivot := by cbv
  -- The pivot exchanges the two cells and moves nothing.
  let second : BasicPlan Number :=
    ⟨[⟨0, 2⟩, ⟨1, 0⟩, ⟨1, 1⟩, ⟨0, 1⟩],
      [(⟨0, 2⟩, .integer 1), (⟨1, 0⟩, .integer 1), (⟨1, 1⟩, .integer 1),
        (⟨0, 1⟩, .integer 0)]⟩
  let secondPrices : Potentials Number :=
    ⟨[some (.integer 0), some (.integer 1)],
      [some (.integer (-1)), some (.integer 0), some (.integer 0)]⟩
  let secondReduced : Table (Option Number) :=
    [[some (.integer 1), some (.integer 0), some (.integer 0)],
      [some (.integer 0), some (.integer 0), some (.integer 1)]]
  have pivots : first.pivot pivot = .ok second := by cbv
  have secondPriced : Potentials.ofBasis problem.cost second.basis problem.rows
      problem.cols = .ok secondPrices := by cbv
  have secondReduces : secondPrices.reducedCosts problem.cost = .ok secondReduced := by cbv
  have noneEnters : enteringCell secondReduced second.basis defaultTolerance =
      .ok none := by decide +kernel
  have secondLists : second.amounts.positive = .ok allocations := by cbv
  have ties : alternatives problem second.basis secondReduced defaultTolerance =
      .ok [] := by decide +kernel
  have settles : (refineFrom problem defaultLimit (.ok defaultTolerance) 99 1 second).result =
      .ok ⟨[⟨1, allocations, secondPrices, secondReduced, .integer 1, none⟩], true,
        allocations, .integer 1, []⟩ := by
    rw [result_refineFrom_succ, secondPriced, ok_bind, secondReduces, ok_bind, ok_bind,
      noneEnters, ok_bind, secondLists, ok_bind, costs, ok_bind]
    dsimp only
    rw [ties]
    rfl
  let record : Refinement Number :=
    ⟨[⟨0, allocations, firstPrices, firstReduced, .integer 1, some pivot⟩,
      ⟨1, allocations, secondPrices, secondReduced, .integer 1, none⟩], true,
      allocations, .integer 1, []⟩
  have refines : (refineFrom problem defaultLimit (.ok defaultTolerance) 100 0 first).result =
      .ok record := by
    rw [result_refineFrom_succ, firstPriced, ok_bind, firstReduces, ok_bind, ok_bind, enters,
      ok_bind, firstLists, ok_bind, costs, ok_bind]
    dsimp only
    rw [pivotFound, ok_bind, pivots, ok_bind, settles]
    rfl
  refine ⟨record, rule, ?_, rfl, rfl⟩
  rw [result_refine, initialAllocations, ok_bind, starts, ok_bind, ok_bind]
  exact refines

/-- A restart from an optimal plan does not always find it optimal in its first iteration. -/
theorem degenerate_restart_pivots :
    ¬ ∀ problem : Problem Int, problem.Valid → problem.supply.sum = problem.demand.sum →
      ∀ first : Refinement Number,
        (refine (problem.map Number.integer) none (.ok defaultLimit)
          (.ok defaultTolerance)).result = .ok first → first.optimal = true →
        ∃ second, (refine (problem.map Number.integer) (some first.allocations)
            (.ok defaultLimit) (.ok defaultTolerance)).result = .ok second ∧
          second.optimal = true ∧ second.iterations.length = 1 ∧
          second.allocations = first.allocations ∧ second.totalCost = first.totalCost := by
  intro settles
  obtain ⟨record, rule, restarts, optimal, length⟩ := degenerate_refinement_pivots
  have valid : degenerateProblem.Valid :=
    ⟨⟨rfl, by simp [degenerateProblem, Problem.cols]⟩, by decide, by decide, by decide,
      by decide⟩
  have refines : (refine (degenerateProblem.map Number.integer) none (.ok defaultLimit)
      (.ok defaultTolerance)).result = .ok record := by
    rw [result_refine, rule, ← restarts, result_refine, initialAllocations]
  obtain ⟨second, again, _, once, _⟩ :=
    settles degenerateProblem valid rfl record refines optimal
  obtain rfl := Except.ok.inj (restarts.symm.trans again)
  omega

end OptimalPlans.Transport
