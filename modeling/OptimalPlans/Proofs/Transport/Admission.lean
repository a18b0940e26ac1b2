import OptimalPlans.Proofs.Transport.BasicStart

/-!
# Admission of integer problems

Validation refuses a table of integers that has no cell or is ragged, and quantities that
do not match its lines or fall below zero.  Every other problem is solved by every method,
whatever the limit and the tolerance are and whether or not its totals agree: no loop is
missing, no look-up fails and no plan is refused.
-/

namespace OptimalPlans

/-- A list of integers as a value. -/
def Value.integerList (values : List Int) : Value :=
  .list (values.map Value.integer)

/-- A list of lists of integers as a value. -/
def Value.integerTable (table : List (List Int)) : Value :=
  .list (table.map Value.integerList)

/-- Invalid input that is refused before anything is computed with it: no plan is there yet
that could hold a loop. -/
def Fault.RefusesProblem (fault : Fault) : Prop :=
  fault.family = .invalidInput ∧ fault ≠ .cyclicPlan

/-- A traversal whose every step is refused under a condition, always with the same fault. -/
theorem mapM_refusing {ε α β : Type} {compute : α → Except ε β} {value : α → β} {fault : ε}
    {refused : α → Prop} [DecidablePred refused] {items : List α}
    (agrees : ∀ item ∈ items,
      compute item = if refused item then .error fault else .ok (value item)) :
    items.mapM compute =
      if ∃ item ∈ items, refused item then .error fault else .ok (items.map value) := by
  induction items with
  | nil => simp
  | cons item items induction =>
      have first := agrees item (by simp)
      have later := induction fun other member => agrees other (by simp [member])
      by_cases refuses : refused item
      · simp [List.mapM_cons, first, refuses]
      · by_cases refusesLater : ∃ other ∈ items, refused other <;>
          simp [List.mapM_cons, first, refuses, later, refusesLater]

namespace Transport

/-! ## Reading integers -/

theorem finiteNumber?_integer {value : Int} (fits : Double.fits value = true) :
    finiteNumber? (Value.integer value) = .ok (some (.integer value)) := by
  simp [finiteNumber?, Value.integer, Value.isFiniteNumber, Number.isFinite, fits,
    Value.number?]

theorem costRow_integerList (name : String) (cols : Nat) {units : List Int}
    (fits : ∀ unit ∈ units, Double.fits unit = true) :
    costRow name cols (.integerList units) =
      if units.length ≠ cols then .error (.raggedMatrix name)
      else .ok (units.map Number.integer) := by
  simp only [costRow, Value.integerList, Value.length, Value.elements, ok_bind,
    List.length_map, List.mapM_map]
  split
  next => rfl
  next =>
      refine mapM_eq_ok fun unit member => ?_
      simp only [Function.comp_apply, finiteNumber?_integer (fits unit member), ok_bind,
        pure_eq_ok]

theorem costMatrix_integerTable (name : String) {table : List (List Int)}
    (fits : ∀ row ∈ table, ∀ unit ∈ row, Double.fits unit = true) :
    costMatrix name (.integerTable table) =
      if table.headD [] = [] then .error (.emptyMatrix name)
      else if ∃ row ∈ table, row.length ≠ (table.headD []).length then
        .error (.raggedMatrix name)
      else .ok (Table.mapEntries Number.integer table, (table.headD []).length) := by
  cases table with
  | nil => rfl
  | cons first later =>
      have read : ((first :: later).map Value.integerList).mapM (costRow name first.length) =
          if ∃ row ∈ first :: later, row.length ≠ first.length then
            Except.error (Fault.raggedMatrix name)
          else Except.ok (Table.mapEntries Number.integer (first :: later)) := by
        rw [List.mapM_map]
        exact mapM_refusing fun row member => costRow_integerList name _ (fits row member)
      cases first with
      | nil => rfl
      | cons unit units =>
          have entered : costMatrix name (.integerTable ((unit :: units) :: later)) = (do
              let rows ← (((unit :: units) :: later).map Value.integerList).mapM
                (costRow name (unit :: units).length)
              return (rows, (unit :: units).length)) := by
            simp [costMatrix, Value.integerTable, Value.integerList, Value.isNull, Value.length,
              Value.elements, Value.first]
          rw [entered, read, List.headD_cons, if_neg (List.cons_ne_nil _ _)]
          split <;> rfl

theorem quantities_integerList (name : String) (expected : Nat) {held : List Int}
    (fits : ∀ quantity ∈ held, Double.fits quantity = true) :
    quantities name expected (.integerList held) =
      if held = [] then .error (.emptyQuantities name)
      else if held.length ≠ expected then .error (.wrongCount name held.length expected)
      else if ∃ quantity ∈ held, quantity < 0 then .error (.badQuantity name)
      else .ok (held.map Number.integer) := by
  by_cases empty : held = []
  · rw [if_pos empty, empty]
    rfl
  rw [if_neg empty]
  by_cases counted : held.length = expected
  · subst counted
    simp only [quantities, Value.integerList, Value.isNull, Value.length, Value.elements,
      ok_bind, List.length_map, List.length_eq_zero_iff, empty, ne_eq, not_true, if_false,
      Bool.false_eq_true, List.mapM_map]
    refine mapM_refusing fun quantity member => ?_
    simp only [Function.comp_apply, finiteNumber?_integer (fits quantity member), ok_bind,
      Number.less, decide_eq_true_eq, throw_eq_error, pure_eq_ok]
  · rw [if_pos counted]
    simp [quantities, Value.integerList, Value.isNull, Value.length, empty, counted]

/-! ## Admission -/

/-- Every number of a problem is within the range of doubles. -/
structure Problem.InRange (problem : Problem Int) : Prop where
  cost_fits : ∀ row ∈ problem.cost, ∀ unit ∈ row, Double.fits unit = true
  supply_fits : ∀ held ∈ problem.supply, Double.fits held = true
  demand_fits : ∀ held ∈ problem.demand, Double.fits held = true

instance (problem : Problem Int) : Decidable problem.InRange :=
  decidable_of_iff ((∀ row ∈ problem.cost, ∀ unit ∈ row, Double.fits unit = true) ∧
      (∀ held ∈ problem.supply, Double.fits held = true) ∧
      ∀ held ∈ problem.demand, Double.fits held = true)
    ⟨fun ⟨cost, supply, demand⟩ => ⟨cost, supply, demand⟩,
      fun inRange => ⟨inRange.cost_fits, inRange.supply_fits, inRange.demand_fits⟩⟩

/-- The table has no cell or is ragged, or the quantities do not match its lines or are
negative. -/
def Problem.Malformed (problem : Problem Int) : Prop :=
  problem.cost.headD [] = [] ∨
    (∃ row ∈ problem.cost, row.length ≠ (problem.cost.headD []).length) ∨
    problem.supply.length ≠ problem.cost.length ∨
    problem.demand.length ≠ (problem.cost.headD []).length ∨
    (∃ held ∈ problem.supply, held < 0) ∨ ∃ held ∈ problem.demand, held < 0

theorem Problem.Valid.not_malformed {problem : Problem Int} (valid : problem.Valid) :
    ¬ problem.Malformed := by
  obtain ⟨⟨height, width⟩, rowsPositive, colsPositive, supplyNonneg, demandNonneg⟩ := valid
  obtain ⟨first, later, table⟩ : ∃ first later, problem.cost = first :: later :=
    List.exists_cons_of_length_pos (height ▸ rowsPositive)
  have firstWidth : (problem.cost.headD []).length = problem.cols := by
    rw [table, List.headD_cons]
    exact width first (by simp [table])
  rintro (noCell | ⟨row, member, ragged⟩ | miscounted | miscounted | ⟨held, member, below⟩ |
    ⟨held, member, below⟩)
  · rw [noCell, List.length_nil] at firstWidth
    omega
  · exact ragged ((width row member).trans firstWidth.symm)
  · exact miscounted height.symm
  · exact miscounted firstWidth.symm
  · exact absurd (supplyNonneg held member) (not_le.mpr below)
  · exact absurd (demandNonneg held member) (not_le.mpr below)

/-- Quantities are read, or refused because they are miscounted or negative. -/
theorem quantities_decides (name : String) {expected : Nat} (positive : 0 < expected)
    {held : List Int} (fits : ∀ quantity ∈ held, Double.fits quantity = true) :
    ((held.length ≠ expected ∨ ∃ quantity ∈ held, quantity < 0) ∧
      ∃ fault, quantities name expected (.integerList held) = .error fault ∧
        fault.RefusesProblem) ∨
    quantities name expected (.integerList held) = .ok (held.map Number.integer) := by
  rw [quantities_integerList name expected fits]
  by_cases empty : held = []
  · refine .inl ⟨.inl ?_, _, if_pos empty, rfl, nofun⟩
    rw [empty, List.length_nil]
    exact positive.ne
  rw [if_neg empty]
  by_cases miscounted : held.length ≠ expected
  · exact .inl ⟨.inl miscounted, _, if_pos miscounted, rfl, nofun⟩
  rw [if_neg miscounted]
  by_cases negative : ∃ quantity ∈ held, quantity < 0
  · exact .inl ⟨.inr negative, _, if_pos negative, rfl, nofun⟩
  · exact .inr (if_neg negative)

/-- A problem of integers is read, or refused because it is malformed. -/
theorem readProblem_decides {problem : Problem Int} (inRange : problem.InRange) :
    (problem.Malformed ∧
      ∃ fault, readProblem (.integerTable problem.cost) (.integerList problem.supply)
          (.integerList problem.demand) = .error fault ∧ fault.RefusesProblem) ∨
    readProblem (.integerTable problem.cost) (.integerList problem.supply)
      (.integerList problem.demand) = .ok (problem.map Number.integer) := by
  have entered : readProblem (.integerTable problem.cost) (.integerList problem.supply)
      (.integerList problem.demand) = (do
        let table ← costMatrix costMatrixName (.integerTable problem.cost)
        let supply ← quantities "Supply" table.1.length (.integerList problem.supply)
        let demand ← quantities "Demand" table.2 (.integerList problem.demand)
        return { cost := table.1, supply, demand }) := rfl
  rw [entered, costMatrix_integerTable _ inRange.cost_fits]
  by_cases noCell : problem.cost.headD [] = []
  · exact .inl ⟨.inl noCell, .emptyMatrix _, by rw [if_pos noCell, error_bind], rfl, nofun⟩
  rw [if_neg noCell]
  by_cases ragged : ∃ row ∈ problem.cost, row.length ≠ (problem.cost.headD []).length
  · exact .inl
      ⟨.inr (.inl ragged), .raggedMatrix _, by rw [if_pos ragged, error_bind], rfl, nofun⟩
  have rowsPositive : 0 < problem.cost.length := by
    rw [List.length_pos_iff]
    intro empty
    exact noCell (by rw [empty]; rfl)
  have height : (problem.cost.mapEntries Number.integer).length = problem.cost.length := by
    simp [Table.mapEntries]
  simp only [if_neg ragged, ok_bind, height]
  rcases quantities_decides "Supply" rowsPositive inRange.supply_fits with
    ⟨refused, fault, result, refuses⟩ | supplied
  · rw [result, error_bind]
    have malformed : problem.Malformed :=
      .inr (.inr (refused.imp id fun negative => .inr (.inl negative)))
    exact .inl ⟨malformed, fault, rfl, refuses⟩
  rw [supplied, ok_bind]
  rcases quantities_decides "Demand" (List.length_pos_iff.mpr noCell) inRange.demand_fits with
    ⟨refused, fault, result, refuses⟩ | demanded
  · rw [result, error_bind]
    have malformed : problem.Malformed := .inr (.inr (.inr (refused.imp id .inr)))
    exact .inl ⟨malformed, fault, rfl, refuses⟩
  exact .inr (by rw [demanded]; rfl)

/-- Integers can be added up. -/
theorem sum_integers_succeeds (values : List Int) :
    ∃ total, Scalar.sum (values.map Number.integer) = .ok total :=
  ⟨.integer (values.foldl (· + ·) 0),
    (foldlM_map (fun total value => Scalar.integer_embedding.add total value) values rfl).trans
      (congrArg (Except.map Number.integer) (foldlM_eq_ok (· + ·) fun _ _ _ => rfl))⟩

/-- Validation decides what reading decides. -/
theorem validate_decides {problem : Problem Int} (inRange : problem.InRange) :
    (problem.Malformed ∧
      ∃ fault, (validate (.integerTable problem.cost) (.integerList problem.supply)
          (.integerList problem.demand)).result = .error fault ∧
        fault.RefusesProblem) ∨
    (problem.Valid ∧
      (validate (.integerTable problem.cost) (.integerList problem.supply)
        (.integerList problem.demand)).result = .ok (problem.map Number.integer)) := by
  simp only [validate, Journal.result_bind, Journal.result_monadLift]
  rcases readProblem_decides inRange with ⟨malformed, fault, result, refuses⟩ | result
  · rw [result]
    exact .inl ⟨malformed, fault, rfl, refuses⟩
  · refine .inr ⟨(readProblem_accepts result).valid, ?_⟩
    obtain ⟨supplied, supplySum⟩ := sum_integers_succeeds problem.supply
    obtain ⟨demanded, demandSum⟩ := sum_integers_succeeds problem.demand
    rw [result, ok_bind, Problem.map, supplySum, ok_bind, demandSum, ok_bind]
    split <;> rfl

/-! ## Solving -/

/-- A refinement of integers succeeds from every proper plan, whatever its tolerance is. -/
theorem refineFrom_succeeds {problem : Problem Int} (valid : problem.Valid)
    (tolerance : Number) (limit : Int) (budget step : Nat) {plan : BasicPlan Int}
    (proper : plan.Proper problem.rows problem.cols) :
    ∃ record, (refineFrom (problem.map Number.integer) limit (.ok tolerance) budget step
      (plan.map Number.integer)).result = .ok record := by
  induction budget generalizing step plan with
  | zero =>
      obtain ⟨positive, inTable⟩ := proper.positive_eq_ok
      rw [result_refineFrom_zero, positive, ok_bind, valid.totalCost_map_eq_ok inTable]
      exact ⟨_, rfl⟩
  | succ budget induction =>
      obtain ⟨price, _, priced, reduced⟩ := proper.priced_eq_ok valid
      obtain ⟨positive, inTable⟩ := proper.positive_eq_ok
      have shaped : ((reducedTable problem.cost price).mapEntries
          (Option.map Number.integer)).Shaped problem.rows problem.cols :=
        (shaped_reducedTable valid.shaped price).mapEntries _
      obtain ⟨entering, entered, enters⟩ :=
        (yields_enteringCell shaped plan.basis tolerance).succeeds
      rw [result_refineFrom_succ]
      simp only [Problem.rows_map, Problem.cols_map, BasicPlan.basis_map, priced, reduced,
        entered, positive, valid.totalCost_map_eq_ok inTable, ok_bind]
      cases entering with
      | none =>
          obtain ⟨ties, tied, _⟩ := Yields.succeeds
            (yields_alternatives (problem.map Number.integer) (by simpa using shaped) plan.basis
              tolerance)
          dsimp only
          rw [tied]
          exact ⟨_, rfl⟩
      | some cell =>
          obtain ⟨cellInTable, absent⟩ := enters cell rfl
          obtain ⟨pivot, _, next, found, _, _, pivoted, nextProper, _⟩ :=
            proper.pivot_map_eq_ok Scalar.integer_embedding valid.rows_pos cellInTable absent
          obtain ⟨later, goesOn⟩ := induction (step + 1) nextProper
          obtain ⟨_, read, _⟩ := Yields.succeeds (shaped.yields_entry cellInTable)
          dsimp only
          rw [found, ok_bind, read, ok_bind, pivoted, ok_bind, goesOn]
          exact ⟨_, rfl⟩

/-- Every method solves a valid problem. -/
theorem solveBy_succeeds {problem : Problem Int} (valid : problem.Valid) (method : Method)
    (limit : Int) (tolerance : Number) :
    ∃ solution, (solveBy method (problem.map Number.integer) (.ok limit)
      (.ok tolerance)).result = .ok solution ∧ solution.method = method := by
  cases method with
  | initial rule =>
      obtain ⟨allocations, _, _, planned, serves, _⟩ := valid.plan_serves rule
      have inTable : ∀ allocation ∈ allocations,
          allocation.cell.InTable problem.rows problem.cols := fun allocation => serves.inTable
      have total := valid.totalCost_map_eq_ok inTable
      refine ⟨.initial rule (readAllocations allocations)
        (.integer (planTotal problem (shipped allocations))), ?_, rfl⟩
      simp only [solveBy, Journal.result_bind, Journal.result_monadLift, planned, ok_bind]
      rw [total, ok_bind, Journal.result_pure]
  | refined =>
      obtain ⟨allocations, chosen, _, penalized⟩ := valid.initialAllocations_eq_ok none
      obtain ⟨ships, loopless⟩ := penalized rfl
      obtain ⟨plan, begins, proper, _⟩ := valid.startingPlan_eq_ok ships.inTable loopless
      obtain ⟨record, refines⟩ :=
        refineFrom_succeeds valid tolerance limit limit.toNat 0 proper
      have refined : (refine (problem.map Number.integer) none (.ok limit)
          (.ok tolerance)).result = .ok record := by
        rw [result_refine, ← Option.map_none, chosen, ok_bind, begins, ok_bind, ok_bind, refines]
      refine ⟨.refined record, ?_, rfl⟩
      simp only [solveBy, Journal.result_bind, refined, ok_bind, Journal.result_pure]

/-- Solving reads the problem, and solves it by the method that is named. -/
theorem result_solve {name : String} {method : Method}
    (named : Method.ofName? name = some method) (cost supply demand : Value)
    (limit : Except Fault Int) (tolerance : Except Fault Number) :
    (solve (.text name) cost supply demand limit tolerance).result = (do
      let problem ← (validate cost supply demand).result
      (solveBy method problem limit tolerance).result) := by
  simp only [solve, Method.ofValue, Value.lookedUp, named, ok_bind, Journal.result_bind,
    Journal.result_monadLift, Journal.result_note, pure_eq_ok]

/-- A problem of integers is refused as invalid input if and only if it is malformed, and
is solved by the named method otherwise.  Nothing else can stop it: neither a plan with a
loop, nor a cell without one, nor a look-up that finds nothing. -/
theorem solve_fails_iff_malformed {name : String} {method : Method}
    (named : Method.ofName? name = some method) {problem : Problem Int}
    (inRange : problem.InRange) (limit : Int) (tolerance : Number) :
    let outcome := (solve (.text name) (.integerTable problem.cost)
      (.integerList problem.supply) (.integerList problem.demand) (.ok limit)
      (.ok tolerance)).result
    ((∃ fault, outcome = .error fault ∧ fault.family = .invalidInput) ↔ problem.Malformed) ∧
    (¬ problem.Malformed → ∃ solution, outcome = .ok solution ∧ solution.method = method) ∧
    ∀ fault, outcome = .error fault → fault.RefusesProblem := by
  intro outcome
  have entered := result_solve named (.integerTable problem.cost)
    (.integerList problem.supply) (.integerList problem.demand) (.ok limit) (.ok tolerance)
  change outcome = _ at entered
  rcases validate_decides inRange with ⟨malformed, fault, result, refuses⟩ | ⟨valid, result⟩
  · rw [result, error_bind] at entered
    refine ⟨⟨fun _ => malformed, fun _ => ⟨fault, entered, refuses.1⟩⟩,
      fun wellFormed => absurd malformed wellFormed, fun other failed => ?_⟩
    rw [entered] at failed
    exact Except.error.inj failed ▸ refuses
  · obtain ⟨solution, solved, same⟩ := solveBy_succeeds valid method limit tolerance
    rw [result, ok_bind, solved] at entered
    have neverFails : ∀ fault, outcome ≠ .error fault := by
      intro fault failed
      rw [entered] at failed
      cases failed
    exact ⟨⟨fun ⟨fault, failed, _⟩ => absurd failed (neverFails fault),
        fun malformed => absurd malformed valid.not_malformed⟩,
      fun _ => ⟨solution, entered, same⟩, fun fault failed => absurd failed (neverFails fault)⟩

theorem unbalanced_problem_is_solved :
    ∃ solution, (solve (.text "modi") (.integerTable [[4, 6], [2, 5], [1, 1]])
      (.integerList [3, 0, 2]) (.integerList [2, 1]) (.ok 3)
      (.ok (.integer (-1)))).result = .ok solution ∧ solution.method = .refined := by
  let problem : Problem Int := ⟨[[4, 6], [2, 5], [1, 1]], [3, 0, 2], [2, 1]⟩
  have inRange : problem.InRange := ⟨by decide +kernel, by decide +kernel, by decide +kernel⟩
  have wellFormed : ¬ problem.Malformed := by
    simp [Problem.Malformed, problem]
  have named : Method.ofName? "modi" = some .refined := rfl
  exact (solve_fails_iff_malformed named inRange 3 (.integer (-1))).2.1 wellFormed

end Transport

end OptimalPlans
