import OptimalPlans.Proofs.Transport.Admission
import OptimalPlans.Proofs.Transport.DummyLine

/-!
# Balanced problems

Balancing adds the dummy line that the smaller side of a problem needs, and leaves a problem
alone whose totals agree.  The balanced problem is validated like any other, so it is only
accepted while the quantity of its dummy line is within the range of doubles.  A refinement
that solves it solves the unbalanced problem.
-/

namespace OptimalPlans.Transport

/-! ## What validation accepts -/

section Accepted

theorem fits_of_finiteNumber? {value : Int} {found : Option Number}
    (read : finiteNumber? (Value.integer value) = .ok found) : Double.fits value = true := by
  by_contra large
  simp [finiteNumber?, Value.integer, Value.isFiniteNumber, Number.isFinite, large] at read

theorem fits_of_costRow {name : String} {cols : Nat} {units : List Int} {row : List Number}
    (read : costRow name cols (.integerList units) = .ok row) :
    ∀ unit ∈ units, Double.fits unit = true := by
  simp only [costRow, throw_eq_error, error_bind, refused_eq_ok_iff, bind_eq_ok_iff] at read
  obtain ⟨_, _, _, items, listed, entries⟩ := read
  obtain rfl := Except.ok.inj listed
  intro unit member
  obtain ⟨_, entry⟩ := exists_of_mapM entries _ (List.mem_map_of_mem member)
  obtain ⟨_, finite, _⟩ := bind_eq_ok_iff.mp entry
  exact fits_of_finiteNumber? finite

theorem fits_of_costMatrix {name : String} {table : List (List Int)}
    {read : Table Number × Nat} (accepted : costMatrix name (.integerTable table) = .ok read) :
    ∀ row ∈ table, ∀ unit ∈ row, Double.fits unit = true := by
  simp only [costMatrix, throw_eq_error, error_bind, refused_eq_ok_iff, bind_eq_ok_iff]
    at accepted
  obtain ⟨_, _, _, _, _, _, _, _, _, items, listed, rows, entries, _⟩ := accepted
  obtain rfl := Except.ok.inj listed
  intro row member
  obtain ⟨_, entry⟩ := exists_of_mapM entries _ (List.mem_map_of_mem member)
  exact fits_of_costRow entry

theorem fits_of_quantities {name : String} {expected : Nat} {values : List Int}
    {held : List Number} (accepted : quantities name expected (.integerList values) = .ok held) :
    ∀ value ∈ values, Double.fits value = true := by
  simp only [quantities, throw_eq_error, error_bind, refused_eq_ok_iff, bind_eq_ok_iff]
    at accepted
  obtain ⟨_, _, _, _, _, items, listed, entries⟩ := accepted
  obtain rfl := Except.ok.inj listed
  intro value member
  obtain ⟨_, entry⟩ := exists_of_mapM entries _ (List.mem_map_of_mem member)
  obtain ⟨_, finite, _⟩ := bind_eq_ok_iff.mp entry
  exact fits_of_finiteNumber? finite

variable {problem : Problem Int}

theorem readProblem_inRange {read : Problem Number}
    (accepted : readProblem (.integerTable problem.cost) (.integerList problem.supply)
      (.integerList problem.demand) = .ok read) : problem.InRange := by
  simp only [readProblem, throw_eq_error, error_bind, refused_eq_ok_iff, bind_eq_ok_iff]
    at accepted
  obtain ⟨_, _, tabled, _, supplied, _, demanded, _⟩ := accepted
  exact ⟨fits_of_costMatrix tabled, fits_of_quantities supplied, fits_of_quantities demanded⟩

/-- Validation accepts the problems of integers that are valid and within range. -/
theorem validate_eq_ok_iff :
    (validate (.integerTable problem.cost) (.integerList problem.supply)
      (.integerList problem.demand)).result = .ok (problem.map Number.integer) ↔
        problem.Valid ∧ problem.InRange := by
  constructor
  · intro accepted
    refine ⟨(validate_accepts accepted).valid, ?_⟩
    simp only [validate, Journal.result_bind, Journal.result_monadLift] at accepted
    obtain ⟨_, read, _⟩ := bind_eq_ok_iff.mp accepted
    exact readProblem_inRange read
  · rintro ⟨valid, inRange⟩
    rcases validate_decides inRange with ⟨malformed, _⟩ | ⟨_, accepted⟩
    · exact absurd malformed valid.not_malformed
    · exact accepted

end Accepted

/-! ## Balancing -/

/-- The dummy line of another kind of quantity. -/
def Dummy.map {α β : Type} (f : α → β) : Dummy α → Dummy β
  | .column quantity => .column (f quantity)
  | .row quantity => .row (f quantity)

/-- A problem with the dummy line that makes its totals agree. -/
def Problem.balanced (problem : Problem Int) : Problem Int :=
  if problem.supply.sum = problem.demand.sum then problem
  else if problem.demand.sum < problem.supply.sum then
    problem.withColumn (problem.supply.sum - problem.demand.sum)
  else problem.withRow (problem.demand.sum - problem.supply.sum)

/-- The dummy line that makes the totals of a problem agree. -/
def Problem.dummy (problem : Problem Int) : Option (Dummy Int) :=
  if problem.supply.sum = problem.demand.sum then none
  else if problem.demand.sum < problem.supply.sum then
    some (.column (problem.supply.sum - problem.demand.sum))
  else some (.row (problem.demand.sum - problem.supply.sum))

section Balance

variable {problem : Problem Int}

theorem sum_integers_eq_ok (values : List Int) :
    Scalar.sum (values.map Number.integer) = .ok (.integer values.sum) := by
  have folded : Scalar.sum (values.map Number.integer) =
      (values.foldlM Scalar.add 0).map Number.integer :=
    foldlM_map (fun total value => Scalar.integer_embedding.add total value) values rfl
  have added : values.foldlM Scalar.add 0 =
      (.ok (values.foldl (· + ·) 0) : Except Fault Int) := foldlM_eq_ok _ fun _ _ _ => rfl
  rw [folded, added, map_ok, List.sum_eq_foldl]

theorem map_withColumn (quantity : Int) :
    (problem.withColumn quantity).map Number.integer =
      { cost := (problem.map Number.integer).cost.map fun row => row ++ [.integer 0]
        supply := (problem.map Number.integer).supply
        demand := (problem.map Number.integer).demand ++ [.integer quantity] } := by
  simp [Problem.map, Problem.withColumn, Table.mapEntries]

theorem map_withRow (quantity : Int) :
    (problem.withRow quantity).map Number.integer =
      { cost := (problem.map Number.integer).cost ++
          [List.replicate (problem.map Number.integer).cols (.integer 0)]
        supply := (problem.map Number.integer).supply ++ [.integer quantity]
        demand := (problem.map Number.integer).demand } := by
  simp [Problem.map, Problem.withRow, Table.mapEntries, Problem.cols]

/-- Balancing a problem of integers adds the dummy line that it needs. -/
theorem balance_eq_ok (problem : Problem Int) :
    balance (problem.map Number.integer) =
      .ok (problem.balanced.map Number.integer,
        problem.dummy.map (Dummy.map Number.integer)) := by
  have entered : balance (problem.map Number.integer) = (do
      let supplied ← Scalar.sum (problem.supply.map Number.integer)
      let demanded ← Scalar.sum (problem.demand.map Number.integer)
      let difference ← Scalar.sub supplied demanded
      if Scalar.isZero difference then
        return (problem.map Number.integer, none)
      else if ← Scalar.isPositive difference then
        return ({ problem.map Number.integer with
          cost := (problem.map Number.integer).cost.map fun row => row ++ [Scalar.ofInt 0]
          demand := (problem.map Number.integer).demand ++ [difference] },
          some (.column difference))
      else
        let missing ← Scalar.neg difference
        return ({ problem.map Number.integer with
          cost := (problem.map Number.integer).cost ++
            [List.replicate (problem.map Number.integer).cols (Scalar.ofInt 0)]
          supply := (problem.map Number.integer).supply ++ [missing] },
          some (.row missing))) := rfl
  have zero : Scalar.isZero (Number.integer (problem.supply.sum - problem.demand.sum)) =
      decide (problem.supply.sum - problem.demand.sum = 0) := rfl
  have positive : Scalar.isPositive (Number.integer (problem.supply.sum - problem.demand.sum)) =
      .ok (decide (0 < problem.supply.sum - problem.demand.sum)) := rfl
  have difference : Scalar.sub (Number.integer problem.supply.sum)
      (.integer problem.demand.sum) =
        .ok (.integer (problem.supply.sum - problem.demand.sum)) := rfl
  have missing : Scalar.neg (Number.integer (problem.supply.sum - problem.demand.sum)) =
      .ok (.integer (problem.demand.sum - problem.supply.sum)) :=
    congrArg (Except.ok ∘ Number.integer) (neg_sub _ _)
  rw [entered, sum_integers_eq_ok, ok_bind, sum_integers_eq_ok, ok_bind, difference, ok_bind,
    zero, positive, ok_bind, missing, ok_bind, Problem.balanced, Problem.dummy]
  by_cases even : problem.supply.sum = problem.demand.sum
  · simp [even]
  have uneven : problem.supply.sum - problem.demand.sum ≠ 0 := sub_ne_zero.mpr even
  by_cases excess : problem.demand.sum < problem.supply.sum
  · simp only [even, uneven, excess, sub_pos, decide_true, decide_false, if_true, if_false,
      Bool.false_eq_true, map_withColumn]
    rfl
  · simp only [even, uneven, excess, sub_pos, decide_false, if_false, Bool.false_eq_true,
      map_withRow]
    rfl

/-- How a problem is balanced: not at all, by a column, or by a row. -/
theorem balanced_cases (problem : Problem Int) :
    (problem.supply.sum = problem.demand.sum ∧ problem.balanced = problem) ∨
    (problem.demand.sum < problem.supply.sum ∧ problem.balanced =
      problem.withColumn (problem.supply.sum - problem.demand.sum)) ∨
    (problem.supply.sum < problem.demand.sum ∧ problem.balanced =
      problem.withRow (problem.demand.sum - problem.supply.sum)) := by
  unfold Problem.balanced
  split
  next even => exact .inl ⟨even, rfl⟩
  next uneven =>
      split
      next excess => exact .inr (.inl ⟨excess, rfl⟩)
      next short => exact .inr (.inr ⟨by omega, rfl⟩)

theorem sum_balanced (problem : Problem Int) :
    problem.balanced.supply.sum = problem.balanced.demand.sum := by
  rcases balanced_cases problem with ⟨even, same⟩ | ⟨excess, same⟩ | ⟨short, same⟩
  · rw [same, even]
  · simp [same, Problem.withColumn]
  · simp [same, Problem.withRow]

theorem dummy_balanced (problem : Problem Int) :
    problem.balanced.balanced = problem.balanced ∧ problem.balanced.dummy = none :=
  ⟨if_pos (sum_balanced problem), if_pos (sum_balanced problem)⟩

theorem Problem.Valid.balanced (valid : problem.Valid) : problem.balanced.Valid := by
  rcases balanced_cases problem with ⟨_, same⟩ | ⟨excess, same⟩ | ⟨short, same⟩
  · rw [same]
    exact valid
  · exact same ▸ valid.withColumn (by omega)
  · exact same ▸ valid.withRow (by omega)

theorem Problem.Valid.balanced_widens (valid : problem.Valid) :
    Widens problem problem.balanced := by
  rcases balanced_cases problem with ⟨_, same⟩ | ⟨_, same⟩ | ⟨_, same⟩
  · rw [same]
    exact ⟨le_rfl, le_rfl, fun _ _ => rfl, fun _ inside outside => absurd inside outside,
      fun _ _ => rfl⟩
  · exact same ▸ valid.withColumn_widens
  · exact same ▸ valid.withRow_widens

/-- The quantities and costs of a problem lead those of its balanced copy. -/
theorem leads_balanced (problem : Problem Int) :
    problem.supply <+: problem.balanced.supply ∧ problem.demand <+: problem.balanced.demand ∧
      ∀ (row : Nat) (units : List Int), problem.cost[row]? = some units →
        ∃ wider, problem.balanced.cost[row]? = some wider ∧ units <+: wider := by
  rcases balanced_cases problem with ⟨_, same⟩ | ⟨_, same⟩ | ⟨_, same⟩
  · rw [same]
    exact ⟨List.prefix_rfl, List.prefix_rfl, fun _ units found => ⟨units, found, List.prefix_rfl⟩⟩
  · rw [same]
    refine ⟨List.prefix_rfl, List.prefix_append _ _, fun row units found => ?_⟩
    exact ⟨units ++ [0], by simp [Problem.withColumn, found], List.prefix_append _ _⟩
  · rw [same]
    refine ⟨List.prefix_append _ _, List.prefix_rfl, fun row units found => ?_⟩
    obtain ⟨bound, _⟩ := List.getElem?_eq_some_iff.mp found
    refine ⟨units, ?_, List.prefix_rfl⟩
    rw [Problem.withRow, List.getElem?_append_left bound, found]

theorem fits_zero : Double.fits 0 = true := by decide +kernel

theorem Problem.InRange.withColumn (inRange : problem.InRange) {quantity : Int}
    (fits : Double.fits quantity = true) : (problem.withColumn quantity).InRange := by
  refine ⟨fun row member unit unitMember => ?_, inRange.supply_fits, fun held member => ?_⟩
  · obtain ⟨units, unitsMember, rfl⟩ := List.mem_map.mp member
    rcases List.mem_append.mp unitMember with old | added
    · exact inRange.cost_fits units unitsMember unit old
    · exact List.mem_singleton.mp added ▸ fits_zero
  · rcases List.mem_append.mp member with old | added
    · exact inRange.demand_fits held old
    · exact List.mem_singleton.mp added ▸ fits

theorem Problem.InRange.withRow (inRange : problem.InRange) {quantity : Int}
    (fits : Double.fits quantity = true) : (problem.withRow quantity).InRange := by
  refine ⟨fun row member unit unitMember => ?_, fun held member => ?_, inRange.demand_fits⟩
  · rcases List.mem_append.mp member with old | added
    · exact inRange.cost_fits row old unit unitMember
    · rw [List.mem_singleton.mp added] at unitMember
      exact List.eq_of_mem_replicate unitMember ▸ fits_zero
  · rcases List.mem_append.mp member with old | added
    · exact inRange.supply_fits held old
    · exact List.mem_singleton.mp added ▸ fits

/-- A balanced problem is within range exactly when the quantity of its dummy line is. -/
theorem Problem.InRange.balanced_iff (inRange : problem.InRange) :
    problem.balanced.InRange ↔
      Double.fits (problem.supply.sum - problem.demand.sum) = true := by
  rcases balanced_cases problem with ⟨even, same⟩ | ⟨_, same⟩ | ⟨_, same⟩
  · rw [same, even, sub_self]
    exact ⟨fun _ => fits_zero, fun _ => inRange⟩
  · rw [same]
    exact ⟨fun wide => wide.demand_fits _ (by simp [Problem.withColumn]), inRange.withColumn⟩
  · rw [same, ← neg_sub problem.demand.sum, Double.fits_neg]
    exact ⟨fun wide => wide.supply_fits _ (by simp [Problem.withRow]), inRange.withRow⟩

end Balance

/-! ## The unbalanced problem -/

/-- The allocations of a plan to the cells of a problem. -/
def Problem.kept (problem : Problem Int) (plan : List (Allocation Int)) :
    List (Allocation Int) :=
  plan.filter fun allocation =>
    allocation.cell.row < problem.rows ∧ allocation.cell.col < problem.cols

section Solved

variable {problem : Problem Int}

theorem shipped_kept (plan : List (Allocation Int)) {cell : Cell}
    (inTable : cell.InTable problem.rows problem.cols) :
    shipped (problem.kept plan) cell = shipped plan cell := by
  induction plan with
  | nil => rfl
  | cons allocation rest induction =>
      rw [shipped_cons, ← induction, Problem.kept, List.filter_cons]
      split
      next => exact shipped_cons _ _ _
      next leaves =>
          have apart : allocation.cell ≠ cell := by
            rintro rfl
            exact leaves (decide_eq_true inTable)
          rw [if_neg apart, zero_add]
          rfl

/-- A refinement that starts from the penalty rule and claims to be optimal ends with a
certified plan, which ships over every line what the plan of the rule does. -/
theorem refine_from_penalty (valid : problem.Valid) {limit : Int} {tolerance : Number}
    (tolerated : Tolerance tolerance) {course : Refinement Number}
    (result : (refine (problem.map Number.integer) none (.ok limit) (.ok tolerance)).result =
      .ok course)
    (optimal : course.optimal = true) :
    ∃ allocations final price, Ships problem.supply problem.demand allocations ∧
      Certified problem final price ∧
      (∀ line, lineTotal problem.rows problem.cols final.amounts.getOrZero line =
        lineTotal problem.rows problem.cols (shipped allocations) line) ∧
      course.allocations =
        final.amounts.positiveAllocations.map (Allocation.map Number.integer) ∧
      course.totalCost = .integer (planTotal problem final.amounts.getOrZero) := by
  have inTable : ∀ allocations, (none : Option (List (Allocation Int))) = some allocations →
      ∀ allocation ∈ allocations, allocation.cell.InTable problem.rows problem.cols := nofun
  rw [result_refine] at result
  obtain ⟨given, chosen, afterChoice⟩ := bind_eq_ok_iff.mp result
  obtain ⟨start, starts, refined⟩ := bind_eq_ok_iff.mp afterChoice
  obtain ⟨allocations, rfl, allocationsInTable, byDefault⟩ :=
    initial_allocations valid inTable chosen
  have ships := byDefault rfl
  obtain ⟨final, price, certified, kept, listed, total⟩ :=
    refine_certified valid tolerated allocationsInTable starts refined optimal
  have merged : (Amounts.merged allocations).getOrZero = shipped allocations :=
    funext fun cell => (Amounts.getOrZero_merged allocations cell).trans
      (max_eq_right (ships.shipped_nonneg cell))
  rw [merged] at kept
  refine ⟨allocations, final, price, ships, certified, kept, listed, ?_⟩
  rw [total, certified.proper.shipped_eq]
  rfl

/-- A refinement of a balanced problem that claims to be optimal ends with a certified plan
that meets every quantity. -/
theorem refine_meets (valid : problem.Valid) (even : problem.supply.sum = problem.demand.sum)
    {limit : Int} {tolerance : Number} (tolerated : Tolerance tolerance)
    {course : Refinement Number}
    (result : (refine (problem.map Number.integer) none (.ok limit) (.ok tolerance)).result =
      .ok course)
    (optimal : course.optimal = true) :
    ∃ final price, Certified problem final price ∧
      (∀ line : Line, line.InTable problem.rows problem.cols →
        lineTotal problem.rows problem.cols final.amounts.getOrZero line =
          lineQuantity problem.supply problem.demand line) ∧
      course.allocations =
        final.amounts.positiveAllocations.map (Allocation.map Number.integer) ∧
      course.totalCost = .integer (planTotal problem final.amounts.getOrZero) := by
  obtain ⟨allocations, final, price, ships, certified, kept, listed, total⟩ :=
    refine_from_penalty valid tolerated result optimal
  exact ⟨final, price, certified, fun line inTable =>
    (kept line).trans (ships.meets even inTable), listed, total⟩

/-- Leaving out the dummy line turns plans that meet every quantity of the balanced problem
into plans that use up the smaller side. -/
theorem Problem.Valid.exhausts (valid : problem.Valid) {amount : Cell → Rat}
    (meets : Meets problem.balanced.rows problem.balanced.cols
      (lineQuantity problem.balanced.supply problem.balanced.demand) amount) :
    Exhausts problem amount := by
  refine valid.balanced_widens.exhausts (fun short => ?_) (fun excess => ?_) meets
  · rcases balanced_cases problem with ⟨_, same⟩ | ⟨excess, _⟩ | ⟨_, same⟩
    · rw [same]
    · omega
    · rw [same, Problem.cols_withRow]
  · rcases balanced_cases problem with ⟨_, same⟩ | ⟨_, same⟩ | ⟨short, _⟩
    · rw [same]
    · rw [same, Problem.rows_withColumn]
    · omega

/-- Putting what is left over on the dummy line turns plans that use up the smaller side
into plans that meet every quantity of the balanced problem. -/
theorem Exhausts.meets_balanced {amount : Cell → Rat} (exhausts : Exhausts problem amount) :
    ∃ wide : Cell → Rat, Meets problem.balanced.rows problem.balanced.cols
        (lineQuantity problem.balanced.supply problem.balanced.demand) wide ∧
      ∀ cell : Cell, cell.InTable problem.rows problem.cols → wide cell = amount cell := by
  rcases balanced_cases problem with ⟨even, same⟩ | ⟨excess, same⟩ | ⟨short, same⟩
  · rw [same]
    refine ⟨amount, ⟨exhausts.nonneg, fun line inTable => ?_⟩, fun _ _ => rfl⟩
    cases line with
    | row row => exact exhausts.supplied even.le row inTable
    | col col => exact exhausts.demanded even.ge col inTable
  · rw [same, Problem.rows_withColumn, Problem.cols_withColumn]
    exact ⟨_, exhausts.meets_withColumn excess.le, fun _ => spread_of_inTable⟩
  · rw [same, Problem.rows_withRow, Problem.cols_withRow]
    exact ⟨_, exhausts.meets_withRow short.le, fun _ => spread_of_inTable⟩

/-- A refinement of the balanced problem that claims to be optimal returns, without the dummy
line, the cheapest of the plans that use up the smaller side, fractions included. -/
theorem Problem.Valid.refine_balanced (valid : problem.Valid) {limit : Int} {tolerance : Number}
    (tolerated : Tolerance tolerance) {course : Refinement Number}
    (result : (refine (problem.balanced.map Number.integer) none (.ok limit)
      (.ok tolerance)).result = .ok course)
    (optimal : course.optimal = true) :
    ∃ (plan : List (Allocation Int)) (total : Int),
      course.allocations = plan.map (Allocation.map Number.integer) ∧
      course.totalCost = .integer total ∧
      (total : Rat) = planCost problem (fun cell => shipped (problem.kept plan) cell) ∧
      Exhausts problem (fun cell => shipped (problem.kept plan) cell) ∧
      ∀ other, Exhausts problem other → (total : Rat) ≤ planCost problem other := by
  obtain ⟨final, price, certified, totals, listed, total⟩ :=
    refine_meets valid.balanced (sum_balanced problem) tolerated result optimal
  have widens := valid.balanced_widens
  have meets : Meets problem.balanced.rows problem.balanced.cols
      (lineQuantity problem.balanced.supply problem.balanced.demand)
      fun cell => (final.amounts.getOrZero cell : Rat) := by
    refine ⟨fun cell _ => by exact_mod_cast certified.proper.nonneg cell, fun line inTable => ?_⟩
    rw [← totals line inTable, cast_lineTotal]
  have kept : ∀ cell : Cell, cell.InTable problem.rows problem.cols →
      (shipped (problem.kept final.amounts.positiveAllocations) cell : Rat) =
        final.amounts.getOrZero cell := by
    intro cell inTable
    rw [shipped_kept _ inTable, certified.proper.shipped_eq]
  refine ⟨final.amounts.positiveAllocations, planTotal problem.balanced final.amounts.getOrZero,
    listed, total, ?_, (valid.exhausts meets).congr kept, fun other exhausts => ?_⟩
  · rw [cast_planTotal, widens.planCost_eq]
    exact (planCost_congr kept).symm
  · obtain ⟨wide, wideMeets, same⟩ := exhausts.meets_balanced
    have cheapest : planCost problem.balanced (fun cell => final.amounts.getOrZero cell) ≤
        planCost problem.balanced wide :=
      certified.planCost_le ⟨wideMeets.nonneg, fun line inTable => by
        rw [wideMeets.totals line inTable, totals line inTable]⟩
    rw [cast_planTotal, ← planCost_congr same, ← widens.planCost_eq wide]
    exact cheapest

/-- A problem of integers that validation accepts is balanced by a dummy line behind its own
lines, so that its totals agree and balancing again changes nothing; validation accepts
the balanced problem exactly when the difference of the totals is within the range of
doubles.  Where a refinement of the balanced problem claims to be optimal, its plan without
the dummy line costs the same, uses up the smaller side and respects the larger one, and is
the cheapest among all plans that do, fractions included. -/
theorem balanced_refinement_solves_problem
    (accepted : (validate (.integerTable problem.cost) (.integerList problem.supply)
      (.integerList problem.demand)).result = .ok (problem.map Number.integer)) :
    balance (problem.map Number.integer) =
        .ok (problem.balanced.map Number.integer,
          problem.dummy.map (Dummy.map Number.integer)) ∧
      problem.balanced.supply.sum = problem.balanced.demand.sum ∧
      balance (problem.balanced.map Number.integer) =
        .ok (problem.balanced.map Number.integer, none) ∧
      problem.supply <+: problem.balanced.supply ∧
      problem.demand <+: problem.balanced.demand ∧
      (∀ (row : Nat) (units : List Int), problem.cost[row]? = some units →
        ∃ wider, problem.balanced.cost[row]? = some wider ∧ units <+: wider) ∧
      ((validate (.integerTable problem.balanced.cost) (.integerList problem.balanced.supply)
          (.integerList problem.balanced.demand)).result =
            .ok (problem.balanced.map Number.integer) ↔
        Double.fits (problem.supply.sum - problem.demand.sum) = true) ∧
      ∀ (limit : Int) (tolerance : Number), Tolerance tolerance →
        ∀ course : Refinement Number,
          (refine (problem.balanced.map Number.integer) none (.ok limit)
            (.ok tolerance)).result = .ok course → course.optimal = true →
          ∃ (plan : List (Allocation Int)) (total : Int),
            course.allocations = plan.map (Allocation.map Number.integer) ∧
            course.totalCost = .integer total ∧
            (total : Rat) = planCost problem (fun cell => shipped (problem.kept plan) cell) ∧
            Exhausts problem (fun cell => shipped (problem.kept plan) cell) ∧
            ∀ other, Exhausts problem other → (total : Rat) ≤ planCost problem other := by
  obtain ⟨valid, inRange⟩ := validate_eq_ok_iff.mp accepted
  obtain ⟨again, rested⟩ := dummy_balanced problem
  have rebalanced := balance_eq_ok problem.balanced
  rw [again, rested] at rebalanced
  obtain ⟨supplied, demanded, table⟩ := leads_balanced problem
  refine ⟨balance_eq_ok problem, sum_balanced problem, rebalanced, supplied, demanded, table, ?_,
    ?_⟩
  · rw [validate_eq_ok_iff, inRange.balanced_iff]
    exact and_iff_right valid.balanced
  intro limit tolerance tolerated course result optimal
  exact valid.refine_balanced tolerated result optimal

theorem square_with_excess_is_solved :
    ∃ (course : Refinement Number) (plan : List (Allocation Int)) (total : Int),
      (validate (.integerTable [[4, 6], [2, 5]]) (.integerList [3, 4])
        (.integerList [5, 1])).result =
          .ok (Problem.map Number.integer ⟨[[4, 6], [2, 5]], [3, 4], [5, 1]⟩) ∧
      balance (Problem.map Number.integer ⟨[[4, 6], [2, 5]], [3, 4], [5, 1]⟩) =
        .ok (Problem.map Number.integer ⟨[[4, 6, 0], [2, 5, 0]], [3, 4], [5, 1, 1]⟩,
          some (.column (.integer 1))) ∧
      (refine (Problem.map Number.integer ⟨[[4, 6, 0], [2, 5, 0]], [3, 4], [5, 1, 1]⟩) none
        (.ok 100) (.ok (.integer 0))).result = .ok course ∧
      course.allocations = plan.map (Allocation.map Number.integer) ∧
      course.totalCost = .integer total ∧
      ∀ other, Exhausts ⟨[[4, 6], [2, 5]], [3, 4], [5, 1]⟩ other →
        (total : Rat) ≤ planCost ⟨[[4, 6], [2, 5]], [3, 4], [5, 1]⟩ other := by
  let problem : Problem Int := ⟨[[4, 6], [2, 5]], [3, 4], [5, 1]⟩
  have valid : problem.Valid :=
    ⟨⟨rfl, by simp [problem, Problem.cols]⟩, by decide, by decide, by decide, by decide⟩
  have inRange : problem.InRange := ⟨by decide +kernel, by decide +kernel, by decide +kernel⟩
  have accepted := validate_eq_ok_iff.mpr ⟨valid, inRange⟩
  obtain ⟨balances, _, _, _, _, _, _, solves⟩ := balanced_refinement_solves_problem accepted
  have runs : (refine (problem.balanced.map Number.integer) none (.ok 100)
      (.ok (.integer 0))).result.map (·.optimal) = .ok true := by
    cbv
  cases result : (refine (problem.balanced.map Number.integer) none (.ok 100)
      (.ok (.integer 0))).result with
  | error fault =>
      rw [result] at runs
      cases runs
  | ok course =>
      rw [result] at runs
      obtain ⟨plan, total, listed, cost, _, _, cheapest⟩ :=
        solves 100 (.integer 0) ⟨by decide, by decide⟩ course result (Except.ok.inj runs)
      exact ⟨course, plan, total, accepted, balances, result, listed, cost, cheapest⟩

/-- Two suppliers whose quantities are within the range of doubles and whose total is not,
and a customer without demand. -/
def vastProblem : Problem Int :=
  ⟨[[1], [1]], [10 ^ 154 * 10 ^ 154, 10 ^ 154 * 10 ^ 154], [0]⟩

/-- Validation does not accept every balanced problem. -/
theorem vast_balanced_problem_is_refused :
    ¬ ∀ problem : Problem Int,
      (validate (.integerTable problem.cost) (.integerList problem.supply)
        (.integerList problem.demand)).result = .ok (problem.map Number.integer) →
      ∃ (balanced : Problem Int) (dummy : Option (Dummy Number)),
        balance (problem.map Number.integer) = .ok (balanced.map Number.integer, dummy) ∧
        (validate (.integerTable balanced.cost) (.integerList balanced.supply)
          (.integerList balanced.demand)).result = .ok (balanced.map Number.integer) := by
  intro accepts
  have valid : vastProblem.Valid :=
    ⟨⟨rfl, by simp [vastProblem, Problem.cols]⟩, by decide, by decide, by decide +kernel,
      by decide⟩
  have inRange : vastProblem.InRange :=
    ⟨by decide +kernel, by decide +kernel, by decide +kernel⟩
  obtain ⟨balanced, dummy, balances, again⟩ :=
    accepts vastProblem (validate_eq_ok_iff.mpr ⟨valid, inRange⟩)
  rw [balance_eq_ok] at balances
  have demand : vastProblem.balanced.demand.map Number.integer =
      balanced.demand.map Number.integer :=
    congrArg (fun pair => pair.1.demand) (Except.ok.inj balances)
  have same : vastProblem.balanced.demand = balanced.demand :=
    List.map_injective_iff.mpr (fun _ _ => Number.integer.inj) demand
  have excess : 2 * (10 ^ 154 * 10 ^ 154) ∈ balanced.demand := by
    rw [← same]
    decide +kernel
  have fits := (validate_eq_ok_iff.mp again).2.demand_fits _ excess
  exact absurd fits (by decide +kernel)

end Solved

end OptimalPlans.Transport
