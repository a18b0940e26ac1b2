import OptimalPlans.Proofs.Transport.Balancing

/-!
# Refining an unbalanced problem

Refining a problem does not balance it first.  The penalty rule ships as much as the smaller
side allows and thereby decides which lines of the larger side stay short; the refinement
keeps what every line ships.  When it claims to be optimal, its plan is therefore the cheapest
for the totals that its lines were left with.  Only the balanced problem also compares plans
with other totals, so its refinement may be cheaper.
-/

namespace OptimalPlans.Transport

/-- Amounts that are not negative and ship over no line more than its quantity. -/
structure Problem.Respects (problem : Problem Int) (amount : Cell → Rat) : Prop where
  nonneg : ∀ cell : Cell, cell.InTable problem.rows problem.cols → 0 ≤ amount cell
  within : ∀ line : Line, line.InTable problem.rows problem.cols →
    lineTotal problem.rows problem.cols amount line ≤
      lineQuantity problem.supply problem.demand line

section Unbalanced

variable {problem : Problem Int} {amount : Cell → Rat}

/-! ## Plans that ship as much as possible -/

namespace Problem.Respects

theorem slack_nonneg (respects : problem.Respects amount) (line : Line)
    (inTable : line.InTable problem.rows problem.cols) : 0 ≤ slack problem amount line :=
  sub_nonneg.mpr (respects.within line inTable)

/-- A plan that ships the whole supply uses up every row. -/
theorem supplied (respects : problem.Respects amount)
    (whole : tableTotal problem.rows problem.cols amount = problem.supply.sum) :
    ∀ row < problem.rows, lineTotal problem.rows problem.cols amount (.row row) =
      lineQuantity problem.supply problem.demand (.row row) := by
  have nothing : ∑ row ∈ Finset.range problem.rows, slack problem amount (.row row) = 0 := by
    rw [sum_slack_rows, whole, sub_self]
  have each := (Finset.sum_eq_zero_iff_of_nonneg fun row member =>
    respects.slack_nonneg (.row row) (Finset.mem_range.mp member)).mp nothing
  exact fun row bound => (sub_eq_zero.mp (each row (Finset.mem_range.mpr bound))).symm

/-- A plan that ships the whole demand uses up every column. -/
theorem demanded (respects : problem.Respects amount)
    (whole : tableTotal problem.rows problem.cols amount = problem.demand.sum) :
    ∀ col < problem.cols, lineTotal problem.rows problem.cols amount (.col col) =
      lineQuantity problem.supply problem.demand (.col col) := by
  have nothing : ∑ col ∈ Finset.range problem.cols, slack problem amount (.col col) = 0 := by
    rw [sum_slack_cols, whole, sub_self]
  have each := (Finset.sum_eq_zero_iff_of_nonneg fun col member =>
    respects.slack_nonneg (.col col) (Finset.mem_range.mp member)).mp nothing
  exact fun col bound => (sub_eq_zero.mp (each col (Finset.mem_range.mpr bound))).symm

end Problem.Respects

/-- The smaller side is used up exactly where as much is shipped in total as it has. -/
theorem exhausts_iff : Exhausts problem amount ↔ problem.Respects amount ∧
    tableTotal problem.rows problem.cols amount =
      (min problem.supply.sum problem.demand.sum : Int) := by
  constructor
  · intro exhausts
    refine ⟨⟨exhausts.nonneg, exhausts.within⟩, ?_⟩
    rcases le_total problem.supply.sum problem.demand.sum with short | excess
    · rw [min_eq_left short, exhausts.tableTotal_eq_supply short]
    · rw [min_eq_right excess, exhausts.tableTotal_eq_demand excess]
  · rintro ⟨respects, total⟩
    refine ⟨respects.nonneg, respects.within, fun short => ?_, fun excess => ?_⟩
    · exact respects.supplied (by rw [total, min_eq_left short])
    · exact respects.demanded (by rw [total, min_eq_right excess])

/-! ## What the refinement keeps -/

/-- Amounts that ship over every line what a rule ships use up the smaller side. -/
theorem Ships.exhausts_of_totals {allocations : List (Allocation Int)}
    (ships : Ships problem.supply problem.demand allocations) {kept : Cell → Int}
    (nonneg : ∀ cell, 0 ≤ kept cell)
    (totals : ∀ line, lineTotal problem.rows problem.cols kept line =
      lineTotal problem.rows problem.cols (shipped allocations) line) :
    Exhausts problem fun cell => kept cell := by
  refine exhausts_iff.mpr ⟨⟨fun cell _ => by exact_mod_cast nonneg cell, fun line _ => ?_⟩, ?_⟩
  · rw [← cast_lineTotal, totals line]
    exact_mod_cast ships.within line
  · have whole : tableTotal problem.rows problem.cols kept =
        tableTotal problem.rows problem.cols (shipped allocations) :=
      Finset.sum_congr rfl fun row _ => totals (.row row)
    rw [← cast_tableTotal, whole]
    exact_mod_cast ships.tableTotal_eq

/-- Only problems that validation accepts are solved. -/
theorem refine_of_solve {limit : Int} {tolerance : Number} {course : Refinement Number}
    (solved : (solve (.text "modi") (.integerTable problem.cost) (.integerList problem.supply)
      (.integerList problem.demand) (.ok limit) (.ok tolerance)).result =
        .ok (.refined course)) :
    problem.Valid ∧ (refine (problem.map Number.integer) none (.ok limit)
      (.ok tolerance)).result = .ok course := by
  rw [result_solve rfl] at solved
  obtain ⟨read, accepted, refined⟩ := bind_eq_ok_iff.mp solved
  have inRange : problem.InRange := by
    have reads := accepted
    simp only [validate, Journal.result_bind, Journal.result_monadLift] at reads
    obtain ⟨_, readOk, _⟩ := bind_eq_ok_iff.mp reads
    exact readProblem_inRange readOk
  rcases validate_decides inRange with ⟨_, fault, refused, _⟩ | ⟨valid, result⟩
  · cases refused.symm.trans accepted
  · obtain rfl := Except.ok.inj (result.symm.trans accepted)
    simp only [solveBy, Journal.result_bind, Journal.result_pure] at refined
    obtain ⟨record, refines, same⟩ := bind_eq_ok_iff.mp refined
    obtain rfl := Solution.refined.inj (Except.ok.inj same)
    exact ⟨valid, refines⟩

/-! ## A contested unit -/

/-- One supplier with a single unit, and two customers who both want it. -/
def contestedProblem : Problem Int :=
  ⟨[[5, 1]], [1], [1, 1]⟩

/-- The first customer would be the dearest to miss, so the penalty rule serves it, and the
refinement finds that plan optimal. -/
theorem contestedProblem_solved :
    ∃ record : Refinement Number,
      (solve (.text "modi") (.integerTable contestedProblem.cost)
        (.integerList contestedProblem.supply) (.integerList contestedProblem.demand)
        (.ok defaultLimit) (.ok defaultTolerance)).result = .ok (.refined record) ∧
      record.optimal = true ∧ record.allocations = [⟨⟨0, 0⟩, .integer 1⟩] ∧
      record.totalCost = .integer 5 := by
  let problem : Problem Number := contestedProblem.map Number.integer
  let allocations : List (Allocation Number) := [⟨⟨0, 0⟩, .integer 1⟩]
  let plan : BasicPlan Number :=
    ⟨[⟨0, 0⟩, ⟨0, 1⟩], [(⟨0, 0⟩, .integer 1), (⟨0, 1⟩, .integer 0)]⟩
  let prices : Potentials Number :=
    ⟨[some (.integer 0)], [some (.integer 5), some (.integer 1)]⟩
  let reduced : Table (Option Number) := [[some (.integer 0), some (.integer 0)]]
  have rule : initialAllocations problem none = .ok allocations := by cbv
  have starts : (startingPlan problem allocations).result = .ok plan := by cbv
  have priced : Potentials.ofBasis problem.cost plan.basis problem.rows problem.cols =
      .ok prices := by cbv
  have reduces : prices.reducedCosts problem.cost = .ok reduced := by cbv
  have noneEnters : enteringCell reduced plan.basis defaultTolerance = .ok none := by
    decide +kernel
  have lists : plan.amounts.positive = .ok allocations := by cbv
  have costs : totalCost problem.cost allocations = .ok (.integer 5) := by cbv
  have ties : alternatives problem plan.basis reduced defaultTolerance = .ok [] := by
    decide +kernel
  let record : Refinement Number :=
    ⟨[⟨0, allocations, prices, reduced, .integer 5, none⟩], true, allocations, .integer 5, []⟩
  have settles : (refineFrom problem defaultLimit (.ok defaultTolerance) 100 0 plan).result =
      .ok record := by
    rw [result_refineFrom_succ, priced, ok_bind, reduces, ok_bind, ok_bind, noneEnters, ok_bind,
      lists, ok_bind, costs, ok_bind]
    dsimp only
    rw [ties]
    rfl
  have refines : (refine problem none (.ok defaultLimit) (.ok defaultTolerance)).result =
      .ok record := by
    rw [result_refine, rule, ok_bind, starts, ok_bind, ok_bind]
    exact settles
  have admitted : contestedProblem.Valid ∧ contestedProblem.InRange :=
    ⟨by decide, by decide +kernel⟩
  refine ⟨record, ?_, rfl, rfl, rfl⟩
  rw [result_solve rfl, validate_eq_ok_iff.mpr admitted, ok_bind]
  simp only [solveBy, Journal.result_bind, Journal.result_pure]
  rw [refines, ok_bind]

/-! ## What the claim to be optimal means -/

/-- Where the refinement of a problem of integers claims to be optimal, its plan uses up the
smaller side, respects the larger one, and is the cheapest among all plans with its line
totals, fractions included.  It costs at least as much as the refinement of the balanced
problem where that claims to be optimal too; both cost the same exactly where none of the
plans that respect every quantity and ship as much in total is cheaper. -/
theorem refined_plan_is_cheapest_for_its_totals {limit : Int} {course : Refinement Number}
    (solved : (solve (.text "modi") (.integerTable problem.cost) (.integerList problem.supply)
      (.integerList problem.demand) (.ok limit) (.ok defaultTolerance)).result =
        .ok (.refined course))
    (optimal : course.optimal = true) :
    ∃ (plan : List (Allocation Int)) (total : Int),
      course.allocations = plan.map (Allocation.map Number.integer) ∧
      course.totalCost = .integer total ∧
      (total : Rat) = planCost problem (fun cell => shipped plan cell) ∧
      Exhausts problem (fun cell => shipped plan cell) ∧
      (∀ other, Meets problem.rows problem.cols
          (lineTotal problem.rows problem.cols (shipped plan)) other →
        (total : Rat) ≤ planCost problem other) ∧
      ∀ (balanced : Problem Number) (dummy : Option (Dummy Number)) (budget : Int)
          (tolerance : Number) (resolved : Refinement Number),
        balance (problem.map Number.integer) = .ok (balanced, dummy) → Tolerance tolerance →
        (refine balanced none (.ok budget) (.ok tolerance)).result = .ok resolved →
        resolved.optimal = true →
        ∃ least : Int, resolved.totalCost = .integer least ∧ least ≤ total ∧
          (least = total ↔ ∀ other, problem.Respects other →
            tableTotal problem.rows problem.cols other =
              tableTotal problem.rows problem.cols (fun cell => (shipped plan cell : Rat)) →
            (total : Rat) ≤ planCost problem other) := by
  obtain ⟨valid, refines⟩ := refine_of_solve solved
  obtain ⟨allocations, final, price, ships, certified, kept, listed, total⟩ :=
    refine_from_penalty valid tolerance_default refines optimal
  have exhausts := ships.exhausts_of_totals certified.proper.nonneg kept
  refine ⟨final.amounts.positiveAllocations, planTotal problem final.amounts.getOrZero, listed,
    total, ?_⟩
  rw [certified.proper.shipped_eq]
  refine ⟨cast_planTotal _ _, exhausts, fun other meets => ?_, ?_⟩
  · rw [cast_planTotal]
    exact certified.planCost_le meets
  intro balanced dummy budget tolerance resolved balances tolerated result settled
  obtain ⟨rfl, rfl⟩ := Prod.mk.inj (Except.ok.inj ((balance_eq_ok problem).symm.trans balances))
  obtain ⟨plan, least, _, cost, attained, meetsAll, cheapest⟩ :=
    valid.refine_balanced tolerated result settled
  refine ⟨least, cost, ?_, fun same other respects whole => ?_, fun bound => ?_⟩
  · have bound := cheapest _ exhausts
    rw [← cast_planTotal] at bound
    exact_mod_cast bound
  · rw [← same]
    exact cheapest other (exhausts_iff.mpr ⟨respects, whole.trans (exhausts_iff.mp exhausts).2⟩)
  · obtain ⟨respects, whole⟩ := exhausts_iff.mp meetsAll
    have upper := bound _ respects (whole.trans (exhausts_iff.mp exhausts).2.symm)
    have lower := cheapest _ exhausts
    rw [← attained] at upper
    rw [← cast_planTotal] at lower
    exact le_antisymm (by exact_mod_cast lower) (by exact_mod_cast upper)

theorem contested_plan_is_dearer_than_balanced :
    ∃ (course resolved : Refinement Number) (total least : Int),
      (solve (.text "modi") (.integerTable contestedProblem.cost)
        (.integerList contestedProblem.supply) (.integerList contestedProblem.demand)
        (.ok defaultLimit) (.ok defaultTolerance)).result = .ok (.refined course) ∧
      (refine (contestedProblem.balanced.map Number.integer) none (.ok 100)
        (.ok (.integer 0))).result = .ok resolved ∧
      course.totalCost = .integer total ∧ resolved.totalCost = .integer least ∧
      least ≤ total ∧ least ≠ total := by
  obtain ⟨course, solved, optimal, _, five⟩ := contestedProblem_solved
  obtain ⟨plan, total, _, cost, _, _, _, compares⟩ :=
    refined_plan_is_cheapest_for_its_totals solved optimal
  have runs : (refine (contestedProblem.balanced.map Number.integer) none (.ok 100)
      (.ok (.integer 0))).result.map (fun course => (course.optimal, course.totalCost)) =
        .ok (true, .integer 1) := by
    cbv
  cases result : (refine (contestedProblem.balanced.map Number.integer) none (.ok 100)
      (.ok (.integer 0))).result with
  | error fault =>
      rw [result] at runs
      cases runs
  | ok resolved =>
      rw [result] at runs
      obtain ⟨settled, one⟩ := Prod.mk.inj (Except.ok.inj runs)
      obtain ⟨least, leastCost, le, _⟩ := compares _ _ 100 (.integer 0) resolved
        (balance_eq_ok contestedProblem) ⟨by decide, by decide⟩ result settled
      have fiveTotal := Number.integer.inj (five.symm.trans cost)
      have oneTotal := Number.integer.inj (one.symm.trans leastCost)
      exact ⟨course, resolved, total, least, solved, rfl, cost, leastCost, le, by omega⟩

/-- Being optimal does not mean that no plan is cheaper that ships as much in total. -/
theorem contested_unit_is_shipped_at_the_dearer_price :
    ¬ ∀ (problem : Problem Int) (course : Refinement Number),
      problem.supply.sum ≠ problem.demand.sum →
      (solve (.text "modi") (.integerTable problem.cost) (.integerList problem.supply)
        (.integerList problem.demand) (.ok defaultLimit) (.ok defaultTolerance)).result =
          .ok (.refined course) →
      course.optimal = true →
      ∀ (plan : List (Allocation Int)) (total : Int),
        course.allocations = plan.map (Allocation.map Number.integer) →
        course.totalCost = .integer total →
        ∀ other, problem.Respects other →
          tableTotal problem.rows problem.cols other =
            tableTotal problem.rows problem.cols (fun cell => (shipped plan cell : Rat)) →
          (total : Rat) ≤ planCost problem other := by
  intro cheapest
  obtain ⟨course, solved, optimal, listed, cost⟩ := contestedProblem_solved
  -- The unit can be sold to the second customer as well, for less.
  let other : Cell → Rat := fun cell => if cell = ⟨0, 1⟩ then 1 else 0
  have respects : contestedProblem.Respects other := by
    refine ⟨fun cell _ => by dsimp only [other]; split <;> decide, fun line inTable => ?_⟩
    cases line with
    | row row =>
        obtain rfl : row = 0 := Nat.lt_one_iff.mp inTable
        simp [lineTotal, rowTotal, lineQuantity, contestedProblem, Problem.cols, other]
    | col col =>
        have bound : col < 2 := inTable
        interval_cases col <;>
          simp [lineTotal, colTotal, lineQuantity, contestedProblem, Problem.rows, other]
  have whole : tableTotal contestedProblem.rows contestedProblem.cols other =
      tableTotal contestedProblem.rows contestedProblem.cols
        fun cell => (shipped [⟨⟨0, 0⟩, 1⟩] cell : Rat) := by
    decide +kernel
  have bound := cheapest contestedProblem course (by decide) solved optimal [⟨⟨0, 0⟩, 1⟩] 5 listed
    cost other respects whole
  have one : planCost contestedProblem other = 1 := by decide +kernel
  rw [one] at bound
  exact absurd bound (by decide)

end Unbalanced

end OptimalPlans.Transport
