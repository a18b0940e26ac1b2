import OptimalPlans.Proofs.Transport.InitialPlans

/-!
# The least-cost rule in one pass

The rule looks over the whole table again before it serves a cell.  One pass over the cells
sorted by cost, and in row-major order among equals, gives the same plan.  A cell that is
passed over has a line that is used up, and no line is ever filled again.
-/

namespace OptimalPlans.Transport

/-! ## Sorted cells -/

/-- The key by which cells are sorted: the cost, and the place in row-major order. -/
def Cell.key (cost : Table Int) (cell : Cell) : Int ×ₗ Nat ×ₗ Nat :=
  toLex (cost.price cell, toLex (cell.row, cell.col))

/-- All cells of a table sorted by cost, in row-major order among equals. -/
def cellsByCost (cost : Table Int) (rows cols : Nat) : List Cell :=
  (Cell.all rows cols).mergeSort fun left right => decide (left.key cost ≤ right.key cost)

section Keys

variable {cost : Table Int} {left right : Cell}

theorem Cell.key_injective (cost : Table Int) : Function.Injective (Cell.key cost) := by
  intro left right same
  obtain ⟨-, places⟩ := Prod.mk.inj (toLex.injective same)
  obtain ⟨rows, cols⟩ := Prod.mk.inj (toLex.injective places)
  exact Cell.eq_iff.mpr ⟨rows, cols⟩

theorem Cell.key_lt_iff : left.key cost < right.key cost ↔
    cost.price left < cost.price right ∨
      cost.price left = cost.price right ∧ left.Before right := by
  simp [Cell.key, Cell.Before, Prod.Lex.toLex_lt_toLex]

theorem mem_cellsByCost_iff {rows cols : Nat} {cell : Cell} :
    cell ∈ cellsByCost cost rows cols ↔ cell.InTable rows cols := by
  rw [cellsByCost, List.mem_mergeSort, Cell.mem_all_iff]

theorem cellsByCost_ascends (cost : Table Int) (rows cols : Nat) :
    (cellsByCost cost rows cols).Pairwise fun left right => left.key cost < right.key cost := by
  have sorted : (cellsByCost cost rows cols).Pairwise fun left right =>
      decide (left.key cost ≤ right.key cost) = true := by
    apply List.pairwise_mergeSort
    · intro left middle right first second
      rw [decide_eq_true_iff] at first second ⊢
      exact first.trans second
    · intro left right
      rw [Bool.or_eq_true, decide_eq_true_iff, decide_eq_true_iff]
      exact le_total _ _
  have distinct : (cellsByCost cost rows cols).Nodup := by
    apply (List.mergeSort_perm _ _).nodup_iff.mpr
    exact (Cell.pairwise_all rows cols).imp Cell.Before.ne
  apply (sorted.and distinct).imp
  rintro left right ⟨order, different⟩
  exact (of_decide_eq_true order).lt_of_ne fun same =>
    different (Cell.key_injective cost same)

end Keys

/-! ## The cell that is chosen -/

/-- What a search for the cheapest cell holds: the cell with the least key of those seen. -/
inductive HoldsLeast (cost : Table Int) : List Cell → Option (Cell × Number) → Prop
  | nothing : HoldsLeast cost [] none
  | best {seen : List Cell} {cell : Cell} : cell ∈ seen →
      (∀ other ∈ seen, cell.key cost ≤ other.key cost) →
      HoldsLeast cost seen (some (cell, .integer (cost.price cell)))

section Choice

variable {rows cols : Nat} {cost : Table Int}

theorem HoldsLeast.takes {seen : List Cell} {cell : Cell}
    (least : ∀ other ∈ seen, cell.key cost ≤ other.key cost) :
    HoldsLeast cost (seen ++ [cell]) (some (cell, .integer (cost.price cell))) := by
  apply HoldsLeast.best
  · exact List.mem_append_right _ (List.mem_singleton_self cell)
  · exact List.forall_mem_append.mpr ⟨least, List.forall_mem_singleton.mpr le_rfl⟩

/-- One more cell takes over only where its cost is below, for it stands behind the cells that
were seen. -/
theorem HoldsLeast.step {seen : List Cell} {held : Option (Cell × Number)} {cell : Cell}
    (holds : HoldsLeast cost seen held) (behind : ∀ other ∈ seen, other.Before cell)
    (found : (cost.mapEntries Number.integer).entry cell = .ok (.integer (cost.price cell))) :
    ∃ next, cheaper (cost.mapEntries Number.integer) held cell = .ok next ∧
      HoldsLeast cost (seen ++ [cell]) next := by
  cases holds with
  | nothing =>
      have bounded : Scalar.bounded (Number.integer (cost.price cell)) = .ok true := rfl
      exact ⟨_, by simp [cheaper, found, bounded], .takes (List.forall_mem_nil _)⟩
  | @best _ best member least =>
      have compared : Scalar.less (Number.integer (cost.price cell))
          (.integer (cost.price best)) = .ok (decide (cost.price cell < cost.price best)) := rfl
      by_cases below : cost.price cell < cost.price best
      · have ahead : cell.key cost < best.key cost := Cell.key_lt_iff.mpr (.inl below)
        exact ⟨some (cell, .integer (cost.price cell)), by simp [cheaper, found, compared, below],
          .takes fun other old => ahead.le.trans (least other old)⟩
      · have ahead : best.key cost < cell.key cost := by
          apply Cell.key_lt_iff.mpr
          rcases (not_lt.mp below).lt_or_eq with dearer | level
          · exact .inl dearer
          · exact .inr ⟨level, behind best member⟩
        refine ⟨some (best, .integer (cost.price best)),
          by simp [cheaper, found, compared, below], .best (List.mem_append_left _ member) ?_⟩
        exact List.forall_mem_append.mpr ⟨least, List.forall_mem_singleton.mpr ahead.le⟩

theorem cheapest_least (shaped : cost.Shaped rows cols) {cells : List Cell}
    (inTable : ∀ cell ∈ cells, cell.InTable rows cols) (ascends : cells.Pairwise Cell.Before) :
    ∃ held, cheapest (cost.mapEntries Number.integer) cells = .ok (held.map (·.1)) ∧
      HoldsLeast cost cells held := by
  have continues : ∀ seen cell held, seen ++ [cell] <+: cells → HoldsLeast cost seen held →
      ∃ next, cheaper (cost.mapEntries Number.integer) held cell = .ok next ∧
        HoldsLeast cost (seen ++ [cell]) next := by
    intro seen cell held opens holds
    have member : cell ∈ cells := opens.subset (by simp)
    have order : (seen ++ [cell]).Pairwise Cell.Before := ascends.sublist opens.sublist
    apply holds.step
    · intro other old
      exact (List.pairwise_append.mp order).2.2 other old cell (List.mem_singleton_self cell)
    · rw [(shaped.mapEntries Number.integer).entry_eq_ok (inTable cell member),
        Table.price_mapEntries rfl]
  obtain ⟨held, result, holds⟩ :=
    foldlM_prefix_invariant (HoldsLeast cost) .nothing continues
  exact ⟨held, by rw [cheapest, result, ok_bind]; rfl, holds⟩

variable {supply demand : List Int}

theorem leastCostChoice_holds (shaped : cost.Shaped supply.length demand.length) :
    ∃ held, leastCostChoice (cost.mapEntries Number.integer) supply demand =
        .ok (held.map (·.1)) ∧ HoldsLeast cost (openCells supply demand) held :=
  cheapest_least shaped inTable_of_mem_openCells ((Cell.pairwise_all _ _).filter _)

theorem leastCostChoice_eq_none (shaped : cost.Shaped supply.length demand.length)
    (closed : openCells supply demand = []) :
    leastCostChoice (cost.mapEntries Number.integer) supply demand = .ok none := by
  obtain ⟨held, result, holds⟩ := leastCostChoice_holds shaped
  rw [closed] at holds
  cases holds with
  | nothing => exact result
  | best member => cases member

/-- The open cell with the least key is chosen. -/
theorem leastCostChoice_eq_some (shaped : cost.Shaped supply.length demand.length) {cell : Cell}
    (opened : cell ∈ openCells supply demand)
    (least : ∀ other ∈ openCells supply demand, cell.key cost ≤ other.key cost) :
    leastCostChoice (cost.mapEntries Number.integer) supply demand = .ok (some cell) := by
  obtain ⟨held, result, holds⟩ := leastCostChoice_holds shaped
  generalize openCells supply demand = cells at holds opened least
  cases holds with
  | nothing => cases opened
  | @best _ best member lowest =>
      have same : best.key cost = cell.key cost :=
        le_antisymm (lowest cell opened) (least best member)
      obtain rfl := Cell.key_injective cost same
      exact result

end Choice

/-! ## One pass -/

/-- One pass over cells that gives each of them what its row and its column still have, and
records what is positive. -/
def onePass : List Cell → List Int → List Int → List (Allocation Int)
  | [], _, _ => []
  | cell :: cells, supply, demand =>
      let available := supply[cell.row]?.getD 0
      let wanted := demand[cell.col]?.getD 0
      let amount := min available wanted
      let later := onePass cells (supply.set cell.row (available - amount))
        (demand.set cell.col (wanted - amount))
      if 0 < amount then ⟨cell, amount⟩ :: later else later

section Pass

variable {cost : Table Int} {supply demand : List Int} {cell : Cell}

theorem set_getD_self (quantities : List Int) (index : Nat) :
    quantities.set index (quantities[index]?.getD 0) = quantities := by
  cases found : quantities[index]? with
  | none => exact List.set_eq_of_length_le (List.getElem?_eq_none_iff.mp found)
  | some held =>
      obtain ⟨bound, rfl⟩ := List.getElem?_eq_some_iff.mp found
      exact List.set_getElem_self bound

/-- A cell with a line that is used up is passed over. -/
theorem onePass_of_closed (supplyNonneg : ∀ held ∈ supply, 0 ≤ held)
    (demandNonneg : ∀ held ∈ demand, 0 ≤ held) (closed : cell ∉ openCells supply demand)
    (cells : List Cell) : onePass (cell :: cells) supply demand = onePass cells supply demand := by
  have availableNonneg := lineQuantity_nonneg supplyNonneg demandNonneg (.row cell.row)
  have wantedNonneg := lineQuantity_nonneg supplyNonneg demandNonneg (.col cell.col)
  dsimp only [lineQuantity] at availableNonneg wantedNonneg
  have nothing : min (supply[cell.row]?.getD 0) (demand[cell.col]?.getD 0) = 0 := by
    rcases not_and_or.mp (mt mem_openCells_iff.mpr closed) with used | used
    · rw [getD_of_not_mem_openLines used, min_eq_left wantedNonneg]
    · rw [getD_of_not_mem_openLines used, min_eq_right availableNonneg]
  simp only [onePass, nothing, sub_zero, set_getD_self, lt_irrefl, if_false]

theorem onePass_of_open {available wanted : Int}
    (availableFound : supply[cell.row]? = some available)
    (wantedFound : demand[cell.col]? = some wanted) (positive : 0 < min available wanted)
    (cells : List Cell) : onePass (cell :: cells) supply demand =
      ⟨cell, min available wanted⟩ :: onePass cells
        (supply.set cell.row (available - min available wanted))
        (demand.set cell.col (wanted - min available wanted)) := by
  rw [onePass]
  simp [availableFound, wantedFound, positive]

theorem onePass_sublist (cells : List Cell) (supply demand : List Int) :
    ((onePass cells supply demand).map (·.cell)).Sublist cells := by
  induction cells generalizing supply demand with
  | nil => exact List.Sublist.slnil
  | cons cell cells induction =>
      rw [onePass]
      split
      next => exact (induction _ _).cons_cons cell
      next => exact (induction _ _).cons cell

theorem ne_zero_of_mem_openLines {quantities : List Int} {index : Nat} {held : Int}
    (member : index ∈ openLines quantities) (found : quantities[index]? = some held) :
    held ≠ 0 := by
  obtain ⟨other, again, some⟩ := mem_openLines_iff.mp member
  obtain rfl := Option.some.inj (again.symm.trans found)
  exact some

/-- Only cells that were open before are open after one was served, and that one is not. -/
theorem mem_openCells_serve {available wanted : Int}
    (availableFound : supply[cell.row]? = some available)
    (wantedFound : demand[cell.col]? = some wanted) (availableSome : available ≠ 0)
    (wantedSome : wanted ≠ 0) {other : Cell}
    (member : other ∈ openCells (supply.set cell.row (available - min available wanted))
      (demand.set cell.col (wanted - min available wanted))) :
    other ∈ openCells supply demand ∧ other ≠ cell := by
  obtain ⟨rowBound, _⟩ := List.getElem?_eq_some_iff.mp availableFound
  obtain ⟨colBound, _⟩ := List.getElem?_eq_some_iff.mp wantedFound
  simp only [mem_openCells_iff, mem_openLines_iff, ← isOpen_iff] at member ⊢
  obtain ⟨rowOpen, colOpen⟩ := member
  constructor
  · exact ⟨isOpen_of_set availableFound availableSome rowOpen,
      isOpen_of_set wantedFound wantedSome colOpen⟩
  · rintro rfl
    rw [isOpen_set rowBound, if_pos rfl, decide_eq_true_iff] at rowOpen
    rw [isOpen_set colBound, if_pos rfl, decide_eq_true_iff] at colOpen
    omega

/-- The pass records what the rule serves, as long as the open cells are still ahead. -/
theorem Follows.eq_onePass {supplyLeft demandLeft : List Int} {allocations : List (Allocation Int)}
    {cells : List Cell} (shaped : cost.Shaped supply.length demand.length)
    (ascends : cells.Pairwise fun left right => left.key cost < right.key cost)
    (ahead : ∀ cell ∈ openCells supply demand, cell ∈ cells)
    (supplyNonneg : ∀ held ∈ supply, 0 ≤ held) (demandNonneg : ∀ held ∈ demand, 0 ≤ held)
    (follows : Follows (leastCostChoice (cost.mapEntries Number.integer)) supply demand
      allocations supplyLeft demandLeft) :
    allocations = onePass cells supply demand := by
  induction cells generalizing supply demand allocations with
  | nil =>
      have closed : openCells supply demand = [] :=
        List.eq_nil_iff_forall_not_mem.mpr fun cell opened => List.not_mem_nil (ahead cell opened)
      have none := leastCostChoice_eq_none shaped closed
      cases follows with
      | stop => rfl
      | serve chosen => cases chosen.symm.trans none
  | cons cell cells induction =>
      obtain ⟨least, later⟩ := List.pairwise_cons.mp ascends
      by_cases opened : cell ∈ openCells supply demand
      · have first : leastCostChoice (cost.mapEntries Number.integer) supply demand =
            .ok (some cell) := by
          apply leastCostChoice_eq_some shaped opened
          intro other member
          rcases List.mem_cons.mp (ahead other member) with rfl | behind
          · exact le_rfl
          · exact (least other behind).le
        cases follows with
        | stop none => cases none.symm.trans first
        | serve chosen availableFound wantedFound rest =>
            obtain rfl := Option.some.inj (Except.ok.inj (chosen.symm.trans first))
            obtain ⟨rowOpen, colOpen⟩ := mem_openCells_iff.mp opened
            have availableSome := ne_zero_of_mem_openLines rowOpen availableFound
            have wantedSome := ne_zero_of_mem_openLines colOpen wantedFound
            have availableNonneg := supplyNonneg _ (List.mem_of_getElem? availableFound)
            have wantedNonneg := demandNonneg _ (List.mem_of_getElem? wantedFound)
            rw [onePass_of_open availableFound wantedFound (by omega)]
            congr 1
            apply induction (by simpa using shaped) later _ _ _ rest
            · intro other member
              obtain ⟨still, different⟩ := mem_openCells_serve availableFound wantedFound
                availableSome wantedSome member
              exact (List.mem_cons.mp (ahead other still)).resolve_left different
            · exact nonneg_set supplyNonneg _ (by omega)
            · exact nonneg_set demandNonneg _ (by omega)
      · rw [onePass_of_closed supplyNonneg demandNonneg opened]
        apply induction shaped later _ supplyNonneg demandNonneg follows
        intro other member
        exact (List.mem_cons.mp (ahead other member)).resolve_left
          (ne_of_mem_of_not_mem member opened)

end Pass

/-- The plan of one pass over all cells, sorted by cost, row and column. -/
def sortedGreedy (problem : Problem Int) : List (Allocation Int) :=
  onePass (cellsByCost problem.cost problem.rows problem.cols) problem.supply problem.demand

/-- The least-cost rule gives the plan of one pass over the sorted cells, in their order. -/
theorem leastCost_eq_sortedGreedy {problem : Problem Int} (valid : problem.Valid) :
    leastCost (problem.map Number.integer) = .ok (readAllocations (sortedGreedy problem)) ∧
      (sortedGreedy problem).Pairwise fun left right =>
        left.cell.key problem.cost < right.cell.key problem.cost := by
  have ascends := cellsByCost_ascends problem.cost problem.rows problem.cols
  obtain ⟨allocations, supplyLeft, demandLeft, result, follows⟩ :=
    leastCost_follows (valid.shaped.mapEntries Number.integer)
  have listed : allocations = sortedGreedy problem := by
    apply follows.eq_onePass valid.shaped ascends _ valid.supply_nonneg valid.demand_nonneg
    intro cell opened
    exact mem_cellsByCost_iff.mpr (inTable_of_mem_openCells cell opened)
  constructor
  · rw [← listed]
    exact result
  · have served : ((sortedGreedy problem).map (·.cell)).Pairwise fun left right =>
        left.key problem.cost < right.key problem.cost :=
      ascends.sublist (onePass_sublist _ _ _)
    rw [List.pairwise_map] at served
    exact served

theorem equal_costs_are_served_in_row_major_order :
    leastCost (Problem.map Number.integer ⟨[[1, 0, 1], [0, -2, 1]], [3, 4], [2, 0, 5]⟩) =
      .ok (readAllocations [⟨⟨1, 0⟩, 2⟩, ⟨⟨0, 2⟩, 3⟩, ⟨⟨1, 2⟩, 2⟩]) := by
  have passed : sortedGreedy ⟨[[1, 0, 1], [0, -2, 1]], [3, 4], [2, 0, 5]⟩ =
      [⟨⟨1, 0⟩, 2⟩, ⟨⟨0, 2⟩, 3⟩, ⟨⟨1, 2⟩, 2⟩] := by
    cbv
  rw [← passed]
  exact (leastCost_eq_sortedGreedy (by decide)).1

end OptimalPlans.Transport
