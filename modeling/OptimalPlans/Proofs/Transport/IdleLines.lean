import OptimalPlans.Proofs.Transport.Balancing

/-!
# Idle lines

A line without a quantity is never open.  The least-cost rule and the penalty rule choose
among open cells only, so lines without quantities behind those of a problem do not change
the plans that these rules make.
-/

namespace OptimalPlans.Transport

/-! ## Choices -/

section Choices

variable {rows cols : Nat} {cost other : Table Number}

theorem cheapest_congr {cells : List Cell}
    (agrees : ∀ cell ∈ cells, other.entry cell = cost.entry cell) :
    cheapest other cells = cheapest cost cells := by
  unfold cheapest
  rw [foldlM_congr fun cell member best => ?_]
  rw [cheaper, cheaper, agrees cell member]

theorem penalties_congr {price prices : Nat → Nat → Except Fault Number}
    {lines crossing : List Nat}
    (agrees : ∀ line ∈ lines, ∀ across ∈ crossing, price line across = prices line across) :
    penalties price lines crossing = penalties prices lines crossing :=
  mapM_congr fun line member => by rw [mapM_congr (agrees line member)]

theorem cheapestCrossing_congr {price prices : Nat → Except Fault Number} {first : Nat}
    {rest : List Nat} (agrees : ∀ line ∈ first :: rest, price line = prices line) :
    cheapestCrossing price first rest = cheapestCrossing prices first rest :=
  Scalar.pick_congr fun left leftMember right rightMember => by
    rw [agrees left leftMember, agrees right rightMember]

/-- The penalty rule compares the costs of open cells only. -/
theorem penaltyCell_congr (shaped : cost.Shaped rows cols)
    (comparable : cost.Comparable rows cols)
    (agrees : ∀ cell : Cell, cell.InTable rows cols → other.entry cell = cost.entry cell)
    {firstRow firstCol : Nat} {laterRows laterCols : List Nat}
    (rowsInTable : ∀ row ∈ firstRow :: laterRows, row < rows)
    (colsInTable : ∀ col ∈ firstCol :: laterCols, col < cols) :
    penaltyCell other firstRow laterRows firstCol laterCols =
      penaltyCell cost firstRow laterRows firstCol laterCols := by
  have entries : ∀ row ∈ firstRow :: laterRows, ∀ col ∈ firstCol :: laterCols,
      other.entry ⟨row, col⟩ = cost.entry ⟨row, col⟩ := fun row rowMember col colMember =>
    agrees _ ⟨rowsInTable row rowMember, colsInTable col colMember⟩
  obtain ⟨rowValues, row, colValues, col, rowPenalties, colPenalties, rowLargest, colLargest,
    rowMember, colMember⟩ := largest_penalties_eq_ok shaped comparable rowsInTable colsInTable
  have rowsSame := penalties_congr entries
  have colsSame := penalties_congr fun col colMember row rowMember =>
    entries row rowMember col colMember
  unfold penaltyCell
  simp only [rowsSame, colsSame, rowPenalties, colPenalties, rowLargest, colLargest, ok_bind]
  rw [cheapestCrossing_congr (entries row.1 rowMember),
    cheapestCrossing_congr fun row rowMember => entries row rowMember col.1 colMember]

end Choices

/-! ## Quantities of zero -/

section Idle

variable {idleRows idleCols : List Int}

theorem openLines_append_idle (quantities : List Int) {idle : List Int}
    (none : ∀ held ∈ idle, held = 0) : openLines (quantities ++ idle) = openLines quantities := by
  have old : ∀ index ∈ List.range quantities.length,
      isOpen (quantities ++ idle) index = isOpen quantities index := by
    intro index member
    rw [isOpen, isOpen, List.getElem?_append_left (List.mem_range.mp member)]
  have added : ((List.range idle.length).map (quantities.length + ·)).filter
      (isOpen (quantities ++ idle)) = [] := by
    refine List.filter_eq_nil_iff.mpr fun index member => ?_
    obtain ⟨offset, offsetMember, rfl⟩ := List.mem_map.mp member
    have bound := List.mem_range.mp offsetMember
    simp [isOpen, bound, none _ (List.getElem_mem bound)]
  rw [openLines, openLines, List.length_append, List.range_add, List.filter_append, added,
    List.append_nil, List.filter_congr old]

/-- The open cells are those of an open row and an open column, row by row. -/
theorem openCells_eq (supply demand : List Int) : openCells supply demand =
    (openLines supply).flatMap fun row => (openLines demand).map fun col => ⟨row, col⟩ := by
  have crossing : ∀ row, ((List.range demand.length).map fun col => (⟨row, col⟩ : Cell)).filter
      (fun cell => isOpen supply cell.row && isOpen demand cell.col) =
        if isOpen supply row then (openLines demand).map fun col => ⟨row, col⟩ else [] := by
    intro row
    rw [List.filter_map]
    cases opened : isOpen supply row <;> simp [Function.comp_def, opened, openLines]
  rw [openCells, Cell.all, List.filter_flatMap, openLines.eq_1 supply]
  simp only [crossing]
  induction List.range supply.length with
  | nil => rfl
  | cons row rows induction =>
      rw [List.flatMap_cons, List.filter_cons, induction]
      cases isOpen supply row <;> rfl

theorem openCells_append_idle (supply demand : List Int) (noSupply : ∀ held ∈ idleRows, held = 0)
    (noDemand : ∀ held ∈ idleCols, held = 0) :
    openCells (supply ++ idleRows) (demand ++ idleCols) = openCells supply demand := by
  rw [openCells_eq, openCells_eq, openLines_append_idle _ noSupply,
    openLines_append_idle _ noDemand]

/-- Choices that do not change with idle lines make the same run. -/
theorem Follows.append_idle {choice wide : List Int → List Int → Except Fault (Option Cell)}
    {rows cols : Nat}
    (same : ∀ supply demand : List Int, supply.length = rows → demand.length = cols →
      wide (supply ++ idleRows) (demand ++ idleCols) = choice supply demand)
    {supply demand supplyLeft demandLeft : List Int} {allocations : List (Allocation Int)}
    (follows : Follows choice supply demand allocations supplyLeft demandLeft)
    (rowsLength : supply.length = rows) (colsLength : demand.length = cols) :
    Follows wide (supply ++ idleRows) (demand ++ idleCols) allocations
      (supplyLeft ++ idleRows) (demandLeft ++ idleCols) := by
  induction follows with
  | stop none => exact .stop ((same _ _ rowsLength colsLength).trans none)
  | serve chosen availableFound wantedFound _ induction =>
      obtain ⟨rowBound, _⟩ := List.getElem?_eq_some_iff.mp availableFound
      obtain ⟨colBound, _⟩ := List.getElem?_eq_some_iff.mp wantedFound
      refine .serve ((same _ _ rowsLength colsLength).trans chosen)
        ((List.getElem?_append_left rowBound).trans availableFound)
        ((List.getElem?_append_left colBound).trans wantedFound) ?_
      rw [List.set_append_left _ _ rowBound, List.set_append_left _ _ colBound]
      exact induction (by simpa using rowsLength) (by simpa using colsLength)

end Idle

/-! ## Problems with idle lines -/

/-- A problem with lines without quantities behind those of another one. -/
structure WidensIdly (problem wide : Problem Int) : Prop extends Widens problem wide where
  supply : ∃ idle, wide.supply = problem.supply ++ idle ∧ ∀ held ∈ idle, held = 0
  demand : ∃ idle, wide.demand = problem.demand ++ idle ∧ ∀ held ∈ idle, held = 0

theorem Problem.Valid.withColumn_idle {problem : Problem Int} (valid : problem.Valid) :
    WidensIdly problem (problem.withColumn 0) where
  toWidens := valid.withColumn_widens
  supply := ⟨[], (List.append_nil _).symm, nofun⟩
  demand := ⟨[0], rfl, fun _ member => List.mem_singleton.mp member⟩

theorem Problem.Valid.withRow_idle {problem : Problem Int} (valid : problem.Valid) :
    WidensIdly problem (problem.withRow 0) where
  toWidens := valid.withRow_widens
  supply := ⟨[0], rfl, fun _ member => List.mem_singleton.mp member⟩
  demand := ⟨[], (List.append_nil _).symm, nofun⟩

namespace WidensIdly

variable {problem wide : Problem Int}

theorem entry_eq (widens : WidensIdly problem wide) (valid : problem.Valid)
    (wideValid : wide.Valid) (cell : Cell) (inTable : cell.InTable problem.rows problem.cols) :
    (wide.map Number.integer).cost.entry cell = (problem.map Number.integer).cost.entry cell := by
  have inWide := widens.inTable inTable
  rw [Problem.map, Problem.map, (wideValid.shaped.mapEntries Number.integer).entry_eq_ok inWide,
    (valid.shaped.mapEntries Number.integer).entry_eq_ok inTable, Table.price_mapEntries rfl,
    Table.price_mapEntries rfl, widens.price_eq cell inTable]

/-- Rules that follow a choice make the same plan where idle lines do not change the
choice. -/
theorem result_eq (widens : WidensIdly problem wide)
    {choice wideChoice : List Int → List Int → Except Fault (Option Cell)}
    {result wideResult : Except Fault (List (Allocation Number))}
    (same : ∀ idleRows idleCols : List Int, (∀ held ∈ idleRows, held = 0) →
      (∀ held ∈ idleCols, held = 0) → ∀ supply demand : List Int,
        supply.length = problem.rows → demand.length = problem.cols →
        wideChoice (supply ++ idleRows) (demand ++ idleCols) = choice supply demand)
    (runs : ∃ allocations supplyLeft demandLeft, result = .ok (readAllocations allocations) ∧
      Follows choice problem.supply problem.demand allocations supplyLeft demandLeft)
    (wideRuns : ∃ allocations supplyLeft demandLeft,
      wideResult = .ok (readAllocations allocations) ∧
      Follows wideChoice wide.supply wide.demand allocations supplyLeft demandLeft) :
    wideResult = result := by
  obtain ⟨idleRows, supply, noSupply⟩ := widens.supply
  obtain ⟨idleCols, demand, noDemand⟩ := widens.demand
  obtain ⟨allocations, _, _, ran, follows⟩ := runs
  obtain ⟨others, _, _, wideRan, wideFollows⟩ := wideRuns
  have again := follows.append_idle (same idleRows idleCols noSupply noDemand) rfl rfl
  rw [← supply, ← demand] at again
  obtain rfl := again.unique wideFollows
  exact wideRan.trans ran.symm

theorem leastCost_eq (widens : WidensIdly problem wide) (valid : problem.Valid)
    (wideValid : wide.Valid) :
    leastCost (wide.map Number.integer) = leastCost (problem.map Number.integer) := by
  refine widens.result_eq (fun idleRows idleCols noSupply noDemand supply demand rowsLength
    colsLength => ?_) (leastCost_follows (valid.shaped.mapEntries Number.integer))
    (leastCost_follows (wideValid.shaped.mapEntries Number.integer))
  rw [leastCostChoice, leastCostChoice, openCells_append_idle _ _ noSupply noDemand]
  refine cheapest_congr fun cell member => widens.entry_eq valid wideValid cell ?_
  rw [← rowsLength, ← colsLength]
  exact inTable_of_mem_openCells cell member

theorem penaltyRule_eq (widens : WidensIdly problem wide) (valid : problem.Valid)
    (wideValid : wide.Valid) :
    penaltyRule (wide.map Number.integer) = penaltyRule (problem.map Number.integer) := by
  have shaped := valid.shaped.mapEntries Number.integer
  have comparable := Table.comparable_mapEntries problem.rows problem.cols problem.cost
  refine widens.result_eq (fun idleRows idleCols noSupply noDemand supply demand rowsLength
    colsLength => ?_) (penaltyRule_follows shaped comparable)
    (penaltyRule_follows (wideValid.shaped.mapEntries Number.integer)
      (Table.comparable_mapEntries _ _ wide.cost))
  rw [penaltyChoice, penaltyChoice, openLines_append_idle _ noSupply,
    openLines_append_idle _ noDemand]
  split
  next firstRow laterRows firstCol laterCols rowsOpen colsOpen =>
      refine congrArg (Except.map some)
        (penaltyCell_congr shaped comparable (widens.entry_eq valid wideValid) ?_ ?_)
      · exact fun row member => rowsLength ▸ lt_length_of_mem_openLines (rowsOpen ▸ member)
      · exact fun col member => colsLength ▸ lt_length_of_mem_openLines (colsOpen ▸ member)
  next => rfl

end WidensIdly

end OptimalPlans.Transport
