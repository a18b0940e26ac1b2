import OptimalPlans.Proofs.Transport.IdleLines

/-!
# The penalty rule against the least-cost rule

A table with a single row or a single column has one plan that meets every quantity.  In a
table with two rows and two columns, plans differ by what they ship around its one loop, and
the penalty rule fills a cell through which going around the loop saves nothing.  So its plan
is the cheapest on these shapes, and no dearer than that of the least-cost rule.  On every
other shape it is dearer for some problem: a small one where the penalties mislead, and idle
lines around it.
-/

namespace OptimalPlans.Transport

/-! ## Plans that deliver -/

/-- Whole amounts that are not negative and meet every quantity of a problem. -/
structure Problem.Delivers (problem : Problem Int) (amount : Cell → Int) : Prop where
  nonneg : ∀ cell, 0 ≤ amount cell
  totals : ∀ line : Line, line.InTable problem.rows problem.cols →
    lineTotal problem.rows problem.cols amount line =
      lineQuantity problem.supply problem.demand line

section Delivers

variable {problem : Problem Int} {amount other : Cell → Int} {cell : Cell}

/-- A rule follows its choices to a plan that meets every quantity. -/
theorem Ships.delivers {allocations : List (Allocation Int)}
    (ships : Ships problem.supply problem.demand allocations)
    (even : problem.supply.sum = problem.demand.sum) : problem.Delivers (shipped allocations) :=
  ⟨ships.shipped_nonneg, fun _ inTable => ships.meets even inTable⟩

namespace Problem.Delivers

theorem le_row (delivers : problem.Delivers amount)
    (inTable : cell.InTable problem.rows problem.cols) :
    amount cell ≤ lineQuantity problem.supply problem.demand (.row cell.row) := by
  rw [← delivers.totals (.row cell.row) inTable.1]
  exact Finset.single_le_sum (f := fun col => amount ⟨cell.row, col⟩)
    (fun col _ => delivers.nonneg _) (Finset.mem_range.mpr inTable.2)

theorem le_col (delivers : problem.Delivers amount)
    (inTable : cell.InTable problem.rows problem.cols) :
    amount cell ≤ lineQuantity problem.supply problem.demand (.col cell.col) := by
  rw [← delivers.totals (.col cell.col) inTable.2]
  exact Finset.single_le_sum (f := fun row => amount ⟨row, cell.col⟩)
    (fun row _ => delivers.nonneg _) (Finset.mem_range.mpr inTable.1)

/-- Nothing is shipped over a line without a quantity. -/
theorem eq_of_idle (delivers : problem.Delivers amount) (again : problem.Delivers other)
    (inTable : cell.InTable problem.rows problem.cols)
    (idle : lineQuantity problem.supply problem.demand (.row cell.row) = 0 ∨
      lineQuantity problem.supply problem.demand (.col cell.col) = 0) :
    amount cell = other cell := by
  have nothing : ∀ {shipped : Cell → Int}, problem.Delivers shipped → shipped cell = 0 := by
    intro shipped delivered
    refine le_antisymm ?_ (delivered.nonneg cell)
    rcases idle with none | none
    · exact (delivered.le_row inTable).trans_eq none
    · exact (delivered.le_col inTable).trans_eq none
  rw [nothing delivers, nothing again]

/-- With one row there is one plan. -/
theorem eq_of_single_row (delivers : problem.Delivers amount) (again : problem.Delivers other)
    (single : problem.rows = 1) (inTable : cell.InTable problem.rows problem.cols) :
    amount cell = other cell := by
  have whole : ∀ {shipped : Cell → Int}, problem.Delivers shipped →
      shipped cell = lineQuantity problem.supply problem.demand (.col cell.col) := by
    intro shipped delivered
    have row : cell.row = 0 := by have := inTable.1; omega
    rw [← delivered.totals (.col cell.col) inTable.2, single]
    simp [lineTotal, colTotal, ← row]
  rw [whole delivers, whole again]

theorem eq_of_single_col (delivers : problem.Delivers amount) (again : problem.Delivers other)
    (single : problem.cols = 1) (inTable : cell.InTable problem.rows problem.cols) :
    amount cell = other cell := by
  have whole : ∀ {shipped : Cell → Int}, problem.Delivers shipped →
      shipped cell = lineQuantity problem.supply problem.demand (.row cell.row) := by
    intro shipped delivered
    have col : cell.col = 0 := by have := inTable.2; omega
    rw [← delivered.totals (.row cell.row) inTable.1, single]
    simp [lineTotal, rowTotal, ← col]
  rw [whole delivers, whole again]

end Problem.Delivers

end Delivers

/-! ## Two rows and two columns -/

section Square

/-- What it costs to ship one unit through a cell of two rows and two columns, and around
the loop back to the quantities. -/
def detour (price : Cell → Int) (cell : Cell) : Int :=
  price cell + price ⟨1 - cell.row, 1 - cell.col⟩ - price ⟨cell.row, 1 - cell.col⟩ -
    price ⟨1 - cell.row, cell.col⟩

/-- Plans for two rows and two columns differ by what they ship around the loop. -/
theorem Problem.Delivers.exchange {problem : Problem Int} {amount other : Cell → Int}
    (delivers : problem.Delivers amount) (again : problem.Delivers other)
    (rows : problem.rows = 2) (cols : problem.cols = 2) {cell : Cell} (inTable : cell.InTable 2 2) :
    planTotal problem amount - planTotal problem other =
      (amount cell - other cell) * detour problem.cost.price cell := by
  have agree : ∀ line : Line, line.InTable 2 2 →
      lineTotal 2 2 amount line = lineTotal 2 2 other line := by
    have totals := delivers.totals
    have others := again.totals
    rw [rows, cols] at totals others
    intro line inTable
    rw [totals line inTable, others line inTable]
  have firstRow := agree (.row 0) Nat.zero_lt_two
  have secondRow := agree (.row 1) Nat.one_lt_two
  have firstCol := agree (.col 0) Nat.zero_lt_two
  simp only [lineTotal, rowTotal, colTotal, Finset.sum_range_succ, Finset.sum_range_zero,
    zero_add] at firstRow secondRow firstCol
  -- What is shipped more through the first cell is shipped less beside it and below it.
  have beside : amount ⟨0, 1⟩ = other ⟨0, 1⟩ - (amount ⟨0, 0⟩ - other ⟨0, 0⟩) := by omega
  have below : amount ⟨1, 0⟩ = other ⟨1, 0⟩ - (amount ⟨0, 0⟩ - other ⟨0, 0⟩) := by omega
  have across : amount ⟨1, 1⟩ = other ⟨1, 1⟩ + (amount ⟨0, 0⟩ - other ⟨0, 0⟩) := by omega
  rw [planTotal, planTotal, rows, cols]
  simp only [tableTotal, rowTotal, Finset.sum_range_succ, Finset.sum_range_zero, zero_add]
  obtain ⟨row, col⟩ := cell
  obtain ⟨rowBound, colBound⟩ := inTable
  dsimp only at rowBound colBound
  unfold detour
  interval_cases row <;> interval_cases col <;> simp only [Nat.sub_self, Nat.sub_zero] <;>
    rw [beside, below, across] <;> ring

/-! ### What the penalty rule serves first -/

/-- The difference between two costs, which is the penalty of a line with two open cells. -/
def gap (unit : Nat → Int) : Int :=
  max (unit 0) (unit 1) - min (unit 0) (unit 1)

theorem penalty_pair (unit : Nat → Int) :
    penalty [Number.integer (unit 0), .integer (unit 1)] = .ok (.integer (gap unit)) := by
  have compared : Scalar.less (Number.integer (unit 1)) (.integer (unit 0)) =
      .ok (decide (unit 1 < unit 0)) := rfl
  by_cases below : unit 1 < unit 0
  · have sorted : Scalar.sortBy Scalar.less [Number.integer (unit 0), .integer (unit 1)] =
        .ok [.integer (unit 1), .integer (unit 0)] := by
      simp [Scalar.sortBy, Scalar.insertFromEnd, compared, below]
    rw [penalty, sorted, ok_bind, gap, max_eq_left below.le, min_eq_right below.le]
    rfl
  · have sorted : Scalar.sortBy Scalar.less [Number.integer (unit 0), .integer (unit 1)] =
        .ok [.integer (unit 0), .integer (unit 1)] := by
      simp [Scalar.sortBy, Scalar.insertFromEnd, compared, below]
    rw [penalty, sorted, ok_bind, gap, max_eq_right (not_lt.mp below),
      min_eq_left (not_lt.mp below)]
    rfl

theorem largest_of_pair {price : Nat → Nat → Except Fault Number} {unit : Nat → Nat → Int}
    (units : ∀ line < 2, ∀ across < 2, price line across = .ok (.integer (unit line across))) :
    ∃ values line, penalties price [0, 1] [0, 1] = .ok values ∧
      largestPenalty values = .ok (line, .integer (gap (unit line))) ∧ line < 2 ∧
      gap (unit (1 - line)) ≤ gap (unit line) := by
  have values : penalties price [0, 1] [0, 1] =
      .ok [(0, .integer (gap (unit 0))), (1, .integer (gap (unit 1)))] := by
    simp [penalties, units, penalty_pair]
  have compared : Scalar.greater (Number.integer (gap (unit 1)))
      (.integer (gap (unit 0))) = .ok (decide (gap (unit 0) < gap (unit 1))) := rfl
  by_cases above : gap (unit 0) < gap (unit 1)
  · exact ⟨_, 1, values, by simp [largestPenalty, Scalar.pick, compared, above], by decide,
      above.le⟩
  · exact ⟨_, 0, values, by simp [largestPenalty, Scalar.pick, compared, above], by decide,
      not_lt.mp above⟩

theorem cheapest_of_pair {price : Nat → Except Fault Number} {unit : Nat → Int}
    (units : ∀ line < 2, price line = .ok (.integer (unit line))) :
    ∃ line, cheapestCrossing price 0 [1] = .ok line ∧ line < 2 ∧ unit line ≤ unit (1 - line) := by
  have compared : Scalar.less (Number.integer (unit 1)) (.integer (unit 0)) =
      .ok (decide (unit 1 < unit 0)) := rfl
  by_cases below : unit 1 < unit 0
  · exact ⟨1, by simp [cheapestCrossing, Scalar.pick, units, compared, below], by decide, below.le⟩
  · exact ⟨0, by simp [cheapestCrossing, Scalar.pick, units, compared, below], by decide,
      not_lt.mp below⟩

/-- Serving the line with the larger penalty in its cheaper cell costs no more, together with
the cell across, than the two cells beside them. -/
theorem cross_le (unit : Nat → Nat → Int) {line across : Nat} (lineBound : line < 2)
    (acrossBound : across < 2) (larger : gap (unit (1 - line)) ≤ gap (unit line))
    (cheaper : unit line across ≤ unit line (1 - across)) :
    unit line across + unit (1 - line) (1 - across) ≤
      unit line (1 - across) + unit (1 - line) across := by
  unfold gap at larger
  interval_cases line <;> interval_cases across <;>
    simp only [Nat.sub_self, Nat.sub_zero] at * <;> omega

theorem penaltyCell_square {cost : Table Int} (shaped : cost.Shaped 2 2) :
    ∃ cell, penaltyCell (cost.mapEntries Number.integer) 0 [1] 0 [1] = .ok cell ∧
      cell.InTable 2 2 ∧ detour cost.price cell ≤ 0 := by
  have entry : ∀ row < 2, ∀ col < 2, (cost.mapEntries Number.integer).entry ⟨row, col⟩ =
      .ok (.integer (cost.price ⟨row, col⟩)) := by
    intro row rowBound col colBound
    rw [(shaped.mapEntries Number.integer).entry_eq_ok ⟨rowBound, colBound⟩,
      Table.price_mapEntries rfl]
  obtain ⟨rowValues, row, rowPenalties, rowLargest, rowBound, rowLarger⟩ := largest_of_pair entry
  obtain ⟨colValues, col, colPenalties, colLargest, colBound, colLarger⟩ :=
    largest_of_pair fun col colBound row rowBound => entry row rowBound col colBound
  have compared : ∀ row col : Int, Scalar.greaterEq (Number.integer row) (.integer col) =
      .ok (decide (col ≤ row)) := fun _ _ => rfl
  unfold penaltyCell
  simp only [rowPenalties, colPenalties, rowLargest, colLargest, compared, ok_bind]
  split
  next =>
      obtain ⟨across, chosen, acrossBound, cheaper⟩ := cheapest_of_pair (entry row rowBound)
      refine ⟨⟨row, across⟩, by rw [chosen]; rfl, ⟨rowBound, acrossBound⟩, ?_⟩
      have gains := cross_le (fun row col => cost.price ⟨row, col⟩) rowBound acrossBound
        rowLarger cheaper
      dsimp only [detour]
      omega
  next =>
      obtain ⟨across, chosen, acrossBound, cheaper⟩ := cheapest_of_pair fun row rowBound =>
        entry row rowBound col colBound
      refine ⟨⟨across, col⟩, by rw [chosen]; rfl, ⟨acrossBound, colBound⟩, ?_⟩
      have gains := cross_le (fun col row => cost.price ⟨row, col⟩) colBound acrossBound
        colLarger cheaper
      dsimp only [detour]
      omega

theorem openLines_pair {quantities : List Int} (pair : quantities.length = 2)
    (some : ∀ index < 2, quantities[index]?.getD 0 ≠ 0) : openLines quantities = [0, 1] := by
  obtain ⟨first, second, rfl⟩ := List.length_eq_two.mp pair
  have firstSome : first ≠ 0 := some 0 (by decide)
  have secondSome : second ≠ 0 := some 1 (by decide)
  simp [openLines, isOpen, List.range_succ, firstSome, secondSome]

/-- With two rows and two columns no plan is cheaper than that of the penalty rule. -/
theorem penalty_square_le {problem : Problem Int} (valid : problem.Valid)
    (even : problem.supply.sum = problem.demand.sum) (rows : problem.rows = 2)
    (cols : problem.cols = 2) {allocations : List (Allocation Int)}
    {supplyLeft demandLeft : List Int}
    (follows : Follows (penaltyChoice (problem.map Number.integer).cost) problem.supply
      problem.demand allocations supplyLeft demandLeft)
    (ships : Ships problem.supply problem.demand allocations)
    {other : Cell → Int} (again : problem.Delivers other) :
    planTotal problem (shipped allocations) ≤ planTotal problem other := by
  have delivers := ships.delivers even
  have shaped : problem.cost.Shaped 2 2 := by simpa only [rows, cols] using valid.shaped
  have inProblem : ∀ {cell : Cell}, cell.InTable 2 2 → cell.InTable problem.rows problem.cols :=
    fun inTable => ⟨rows ▸ inTable.1, cols ▸ inTable.2⟩
  -- It is enough to find a cell through which going around the loop does not pay.
  suffices settled : ∃ cell : Cell, cell.InTable 2 2 ∧
      (shipped allocations cell - other cell) * detour problem.cost.price cell ≤ 0 by
    obtain ⟨cell, inTable, bound⟩ := settled
    rw [← delivers.exchange again rows cols inTable] at bound
    omega
  by_cases idle : ∃ cell : Cell, cell.InTable 2 2 ∧
      (lineQuantity problem.supply problem.demand (.row cell.row) = 0 ∨
        lineQuantity problem.supply problem.demand (.col cell.col) = 0)
  · obtain ⟨cell, inTable, none⟩ := idle
    refine ⟨cell, inTable, ?_⟩
    rw [delivers.eq_of_idle again (inProblem inTable) none, sub_self, zero_mul]
  have rowsOpen : openLines problem.supply = [0, 1] := openLines_pair rows fun row bound none =>
    idle ⟨⟨row, 0⟩, ⟨bound, Nat.zero_lt_two⟩, .inl none⟩
  have colsOpen : openLines problem.demand = [0, 1] := openLines_pair cols fun col bound none =>
    idle ⟨⟨0, col⟩, ⟨Nat.zero_lt_two, bound⟩, .inr none⟩
  -- All lines are open, and the cell that is served first is filled.
  obtain ⟨cell, chosen, inTable, saves⟩ := penaltyCell_square shaped
  have choice : penaltyChoice (problem.map Number.integer).cost problem.supply problem.demand =
      .ok (some cell) := by
    rw [penaltyChoice, rowsOpen, colsOpen]
    exact congrArg (Except.map some) chosen
  refine ⟨cell, inTable, mul_nonpos_of_nonneg_of_nonpos ?_ saves⟩
  cases follows with
  | stop none => cases none.symm.trans choice
  | serve served availableFound wantedFound later =>
      obtain rfl := Option.some.inj (Except.ok.inj (served.symm.trans choice))
      have filled := ships.le_shipped List.mem_cons_self
      have rowBound := again.le_row (inProblem inTable)
      have colBound := again.le_col (inProblem inTable)
      simp only [lineQuantity, availableFound, wantedFound, Option.getD_some] at rowBound colBound
      dsimp only at filled
      omega

end Square

/-! ## The comparison -/

/-- What the plan costs that a rule makes for a problem. -/
def Problem.RuleCosts (problem : Problem Int) (rule : InitialRule) (total : Int) : Prop :=
  ∃ plan, (rule.plan (problem.map Number.integer)).result = .ok plan ∧
    totalCost (problem.map Number.integer).cost plan = .ok (.integer total)

/-- Problems that validation accepts, with costs that are not negative and totals that
agree. -/
structure Problem.Regular (problem : Problem Int) : Prop where
  accepted : (validate (.integerTable problem.cost) (.integerList problem.supply)
    (.integerList problem.demand)).result = .ok (problem.map Number.integer)
  cost_nonneg : ∀ row ∈ problem.cost, ∀ unit ∈ row, 0 ≤ unit
  even : problem.supply.sum = problem.demand.sum

section Comparison

variable {problem : Problem Int}

theorem Problem.RuleCosts.unique {rule : InitialRule} {total again : Int}
    (costs : problem.RuleCosts rule total) (others : problem.RuleCosts rule again) :
    total = again := by
  obtain ⟨plan, result, priced⟩ := costs
  obtain ⟨other, otherResult, otherPriced⟩ := others
  obtain rfl := Except.ok.inj (result.symm.trans otherResult)
  exact Number.integer.inj (Except.ok.inj (priced.symm.trans otherPriced))

theorem Problem.Regular.valid (regular : problem.Regular) : problem.Valid :=
  (validate_eq_ok_iff.mp regular.accepted).1

/-- Every rule makes a plan that delivers, and its cost is that of the plan. -/
theorem Problem.Regular.ruleCosts (regular : problem.Regular) (rule : InitialRule) :
    ∃ allocations : List (Allocation Int),
      problem.RuleCosts rule (planTotal problem (shipped allocations)) ∧
      problem.Delivers (shipped allocations) := by
  obtain ⟨allocations, _, _, result, serves, closed⟩ := regular.valid.plan_serves rule
  have ships := serves.ships closed regular.valid.supply_nonneg regular.valid.demand_nonneg
  exact ⟨allocations, ⟨_, result, regular.valid.totalCost_map_eq_ok ships.inTable⟩,
    ships.delivers regular.even⟩

/-- On the small shapes no plan is cheaper than that of the penalty rule. -/
theorem Problem.Regular.penalty_le (regular : problem.Regular)
    (small : problem.rows = 1 ∨ problem.cols = 1 ∨ problem.rows = 2 ∧ problem.cols = 2) :
    ∃ total, problem.RuleCosts .penalty total ∧
      ∀ other, problem.Delivers other → total ≤ planTotal problem other := by
  have valid := regular.valid
  have shaped := valid.shaped.mapEntries Number.integer
  have comparable := Table.comparable_mapEntries problem.rows problem.cols problem.cost
  obtain ⟨allocations, _, _, result, follows⟩ := penaltyRule_follows shaped comparable
  have ships := (follows.serves (penaltyChoice_opens shaped comparable)).ships
    (closed_of_penaltyChoice follows.chooses_none) valid.supply_nonneg valid.demand_nonneg
  have delivers := ships.delivers regular.even
  refine ⟨_, ⟨_, (result_plan .penalty _).trans result,
    valid.totalCost_map_eq_ok ships.inTable⟩, fun other again => ?_⟩
  rcases small with single | single | ⟨rows, cols⟩
  · refine le_of_eq (tableTotal_congr fun cell inTable => ?_)
    rw [delivers.eq_of_single_row again single inTable]
  · refine le_of_eq (tableTotal_congr fun cell inTable => ?_)
    rw [delivers.eq_of_single_col again single inTable]
  · exact penalty_square_le valid regular.even rows cols follows ships again

/-! ### Larger shapes -/

/-- The two rules that choose among open cells make plans of the same cost with and without
idle lines. -/
theorem WidensIdly.ruleCosts {wide : Problem Int} (widens : WidensIdly problem wide)
    (valid : problem.Valid) (wideValid : wide.Valid) {rule : InitialRule} {total : Int}
    (costs : problem.RuleCosts rule total) (chooses : rule ≠ .northWest) :
    wide.RuleCosts rule total := by
  obtain ⟨plan, result, priced⟩ := costs
  have wideResult : (rule.plan (wide.map Number.integer)).result = .ok plan := by
    rw [← result, result_plan, result_plan]
    cases rule with
    | northWest => exact absurd rfl chooses
    | leastCost => exact widens.leastCost_eq valid wideValid
    | penalty => exact widens.penaltyRule_eq valid wideValid
  obtain ⟨allocations, _, _, ran, serves, _⟩ := valid.plan_serves rule
  obtain rfl := Except.ok.inj (result.symm.trans ran)
  refine ⟨_, wideResult, priced ▸ foldlM_congr fun allocation member total => ?_⟩
  obtain ⟨source, listed, rfl⟩ := List.mem_map.mp member
  have entry := widens.entry_eq valid wideValid source.cell (serves.inTable listed)
  dsimp only [Allocation.map]
  rw [entry]

theorem Problem.Regular.withColumn (regular : problem.Regular) :
    (problem.withColumn 0).Regular := by
  obtain ⟨valid, inRange⟩ := validate_eq_ok_iff.mp regular.accepted
  refine ⟨validate_eq_ok_iff.mpr ⟨valid.withColumn le_rfl, inRange.withColumn fits_zero⟩,
    fun row member unit unitMember => ?_, ?_⟩
  · obtain ⟨units, unitsMember, rfl⟩ := List.mem_map.mp member
    rcases List.mem_append.mp unitMember with old | added
    · exact regular.cost_nonneg units unitsMember unit old
    · exact (List.mem_singleton.mp added).ge
  · simpa [Problem.withColumn] using regular.even

theorem Problem.Regular.withRow (regular : problem.Regular) :
    (problem.withRow 0).Regular := by
  obtain ⟨valid, inRange⟩ := validate_eq_ok_iff.mp regular.accepted
  refine ⟨validate_eq_ok_iff.mpr ⟨valid.withRow le_rfl, inRange.withRow fits_zero⟩,
    fun row member unit unitMember => ?_, ?_⟩
  · rcases List.mem_append.mp member with old | added
    · exact regular.cost_nonneg row old unit unitMember
    · rw [List.mem_singleton.mp added] at unitMember
      exact (List.eq_of_mem_replicate unitMember).ge
  · simpa [Problem.withRow] using regular.even

/-- The plan of the penalty rule is dearer than that of the least-cost rule. -/
def Problem.Misleads (problem : Problem Int) : Prop :=
  ∃ byPenalty byLeastCost, problem.RuleCosts .penalty byPenalty ∧
    problem.RuleCosts .leastCost byLeastCost ∧ byLeastCost < byPenalty

theorem WidensIdly.misleads {wide : Problem Int} (widens : WidensIdly problem wide)
    (valid : problem.Valid) (wideValid : wide.Valid) (misleads : problem.Misleads) :
    wide.Misleads := by
  obtain ⟨byPenalty, byLeastCost, penalty, leastCost, dearer⟩ := misleads
  exact ⟨byPenalty, byLeastCost, widens.ruleCosts valid wideValid penalty nofun,
    widens.ruleCosts valid wideValid leastCost nofun, dearer⟩

/-- Some problem of a shape misleads the penalty rule. -/
def Misled (rows cols : Nat) : Prop :=
  ∃ problem : Problem Int, problem.Regular ∧ problem.rows = rows ∧ problem.cols = cols ∧
    problem.Misleads

namespace Misled

variable {rows cols : Nat}

theorem succ_rows (misled : Misled rows cols) : Misled (rows + 1) cols := by
  obtain ⟨problem, regular, rfl, rfl, misleads⟩ := misled
  exact ⟨_, regular.withRow, Problem.rows_withRow, rfl,
    regular.valid.withRow_idle.misleads regular.valid regular.withRow.valid misleads⟩

theorem succ_cols (misled : Misled rows cols) : Misled rows (cols + 1) := by
  obtain ⟨problem, regular, rfl, rfl, misleads⟩ := misled
  exact ⟨_, regular.withColumn, rfl, Problem.cols_withColumn,
    regular.valid.withColumn_idle.misleads regular.valid regular.withColumn.valid misleads⟩

theorem mono (misled : Misled rows cols) {moreRows moreCols : Nat} (rowsLe : rows ≤ moreRows)
    (colsLe : cols ≤ moreCols) : Misled moreRows moreCols := by
  have tall : Misled moreRows cols := by
    induction moreRows, rowsLe using Nat.le_induction with
    | base => exact misled
    | succ _ _ induction => exact induction.succ_rows
  induction moreCols, colsLe using Nat.le_induction with
  | base => exact tall
  | succ _ _ induction => exact induction.succ_cols

end Misled

/-- The second row is served first, in its cheapest cell, and leaves the first customer to
the dearer row. -/
def flatProblem : Problem Int :=
  ⟨[[2, 0, 0], [1, 1, 0]], [2, 1], [1, 1, 1]⟩

theorem flatProblem_regular : flatProblem.Regular :=
  ⟨validate_eq_ok_iff.mpr ⟨by decide, by decide +kernel⟩, by decide, rfl⟩

theorem flatProblem_penalty : flatProblem.RuleCosts .penalty 2 :=
  ⟨[⟨⟨1, 2⟩, .integer 1⟩, ⟨⟨0, 1⟩, .integer 1⟩, ⟨⟨0, 0⟩, .integer 1⟩], by cbv, by cbv⟩

theorem flatProblem_leastCost : flatProblem.RuleCosts .leastCost 1 :=
  ⟨[⟨⟨0, 1⟩, .integer 1⟩, ⟨⟨0, 2⟩, .integer 1⟩, ⟨⟨1, 0⟩, .integer 1⟩], by cbv, by cbv⟩

/-- The second customer is served first, from the row that the first customer needs more. -/
def tallProblem : Problem Int :=
  ⟨[[0, 0], [1, 2], [3, 2]], [1, 1, 1], [2, 1]⟩

theorem tallProblem_regular : tallProblem.Regular :=
  ⟨validate_eq_ok_iff.mpr ⟨by decide, by decide +kernel⟩, by decide, rfl⟩

theorem tallProblem_misleads : tallProblem.Misleads :=
  ⟨4, 3,
    ⟨[⟨⟨0, 1⟩, .integer 1⟩, ⟨⟨2, 0⟩, .integer 1⟩, ⟨⟨1, 0⟩, .integer 1⟩], by cbv, by cbv⟩,
    ⟨[⟨⟨0, 0⟩, .integer 1⟩, ⟨⟨1, 0⟩, .integer 1⟩, ⟨⟨2, 1⟩, .integer 1⟩], by cbv, by cbv⟩,
    by decide⟩

theorem misled_of_large {rows cols : Nat}
    (large : 2 ≤ rows ∧ 3 ≤ cols ∨ 3 ≤ rows ∧ 2 ≤ cols) : Misled rows cols := by
  have flat : Misled 2 3 := ⟨flatProblem, flatProblem_regular, rfl, rfl, 2, 1,
    flatProblem_penalty, flatProblem_leastCost, by decide⟩
  have tall : Misled 3 2 := ⟨tallProblem, tallProblem_regular, rfl, rfl, tallProblem_misleads⟩
  rcases large with ⟨rowsLe, colsLe⟩ | ⟨rowsLe, colsLe⟩
  · exact flat.mono rowsLe colsLe
  · exact tall.mono rowsLe colsLe

/-- On every problem of a shape that validation accepts, with costs that are not negative and
totals that agree, both rules make a plan and that of the penalty rule is no dearer, exactly
where the shape has a single row, a single column, or two rows and two columns. -/
theorem penalty_plan_le_least_cost_iff (rows cols : Nat) :
    (∀ problem : Problem Int, problem.Regular → problem.rows = rows → problem.cols = cols →
      ∃ byPenalty byLeastCost, problem.RuleCosts .penalty byPenalty ∧
        problem.RuleCosts .leastCost byLeastCost ∧ byPenalty ≤ byLeastCost) ↔
      rows ≤ 1 ∨ cols ≤ 1 ∨ rows = 2 ∧ cols = 2 := by
  constructor
  · intro ordered
    by_contra large
    have misled : Misled rows cols := misled_of_large (by omega)
    obtain ⟨problem, regular, rowsEq, colsEq, byPenalty, byLeastCost, penalty, leastCost,
      dearer⟩ := misled
    obtain ⟨again, other, penaltyAgain, leastCostAgain, le⟩ :=
      ordered problem regular rowsEq colsEq
    obtain rfl := penalty.unique penaltyAgain
    obtain rfl := leastCost.unique leastCostAgain
    omega
  · rintro small problem regular rfl rfl
    have rowsPos := regular.valid.rows_pos
    have colsPos := regular.valid.cols_pos
    obtain ⟨byPenalty, penalty, cheapest⟩ := regular.penalty_le (by omega)
    obtain ⟨allocations, leastCost, delivers⟩ := regular.ruleCosts .leastCost
    exact ⟨byPenalty, _, penalty, leastCost, cheapest _ delivers⟩

theorem square_penalty_plan_le_least_cost :
    ∃ byPenalty byLeastCost,
      (⟨[[4, 6], [2, 5]], [3, 4], [5, 2]⟩ : Problem Int).RuleCosts .penalty byPenalty ∧
      (⟨[[4, 6], [2, 5]], [3, 4], [5, 2]⟩ : Problem Int).RuleCosts .leastCost byLeastCost ∧
      byPenalty ≤ byLeastCost := by
  have regular : (⟨[[4, 6], [2, 5]], [3, 4], [5, 2]⟩ : Problem Int).Regular :=
    ⟨validate_eq_ok_iff.mpr ⟨by decide, by decide +kernel⟩, by decide, rfl⟩
  exact (penalty_plan_le_least_cost_iff 2 2).mpr (by decide) _ regular rfl rfl

/-- The penalty rule does not always make the cheaper plan. -/
theorem flat_problem_misleads_penalty_rule :
    ¬ ∀ problem : Problem Int, problem.Regular → ∀ byPenalty byLeastCost,
      problem.RuleCosts .penalty byPenalty → problem.RuleCosts .leastCost byLeastCost →
      byPenalty ≤ byLeastCost := by
  intro ordered
  have bound := ordered flatProblem flatProblem_regular 2 1 flatProblem_penalty
    flatProblem_leastCost
  omega

end Comparison

end OptimalPlans.Transport
