import OptimalPlans.Proofs.Transport.PivotInvariant
import OptimalPlans.Proofs.Transport.ReducedCosts
import OptimalPlans.Proofs.Transport.RuleEmbedding
import OptimalPlans.Proofs.Transport.SpanningBasis

/-!
# Cost of loops

What a spanning tree leaves of the cost of a cell after its two potentials is what one
unit costs that is sent around the loop of the cell.  Shifting any amount around the loop
changes the cost of a plan by so much for each unit.
-/

namespace OptimalPlans.Transport

namespace Amounts

/-- All amounts as allocations, in their order. -/
def allocations {α : Type} (amounts : Amounts α) : List (Allocation α) :=
  amounts.map fun entry => ⟨entry.1, entry.2⟩

theorem allocations_mapAmounts {α β : Type} (f : α → β) (amounts : Amounts α) :
    (amounts.mapAmounts f).allocations = amounts.allocations.map (Allocation.map f) := by
  simp [allocations, mapAmounts, Allocation.map]

theorem map_cell_allocations {α : Type} (amounts : Amounts α) :
    amounts.allocations.map (·.cell) = amounts.cells := by
  simp [allocations, cells]

theorem shipped_allocations {amounts : Amounts Int} (nodup : amounts.cells.Nodup)
    (cell : Cell) : shipped amounts.allocations cell = amounts.getOrZero cell := by
  rw [← sum_entries nodup, shipped, allocations, List.map_map]
  rfl

/-- The cost of all amounts is the total of price times amount. -/
theorem totalCost_allocations {rows cols : Nat} {cost : Table Int} {amounts : Amounts Int}
    (shaped : cost.Shaped rows cols) (nodup : amounts.cells.Nodup)
    (inTable : ∀ cell ∈ amounts.cells, cell.InTable rows cols) :
    totalCost cost amounts.allocations =
      .ok (tableTotal rows cols fun cell => cost.price cell * amounts.getOrZero cell) := by
  have listed : ∀ allocation ∈ amounts.allocations, allocation.cell.InTable rows cols := by
    intro allocation member
    apply inTable
    rw [← map_cell_allocations]
    exact List.mem_map_of_mem member
  rw [totalCost_eq_ok shaped listed]
  simp only [shipped_allocations nodup]

end Amounts

section Shifts

variable {rows cols : Nat} {basis cells : List Cell} {entering : Cell}
  {amounts : Amounts Int}

/-- Any amount can be shifted around a loop whose losing cells are held.  The amounts
change by the weights of the loop if the leaving cell, where there is one, is emptied. -/
theorem ClosesLoop.shiftAround_eq_ok (closes : ClosesLoop basis entering cells)
    (nodup : amounts.cells.Nodup) (held : basis ⊆ amounts.cells) (theta : Int)
    {leaving : Option Cell}
    (emptied : ∀ cell, leaving = some cell →
      amounts.getOrZero cell + theta * loopWeight (loopAlong entering cells) cell = 0) :
    ∃ next, BasicPlan.shiftAround ⟨basis, amounts⟩ (loopAlong entering cells) theta leaving =
        .ok next ∧
      next.amounts.cells.Nodup ∧
      (∀ cell ∈ next.amounts.cells, cell ∈ amounts.cells ∨ cell = entering) ∧
      ∀ cell, next.amounts.getOrZero cell =
        amounts.getOrZero cell + theta * loopWeight (loopAlong entering cells) cell := by
  have losing : ∀ step ∈ loopAlong entering cells, step.sign = .minus →
      step.cell ∈ amounts.cells := fun step member loses =>
    held (closes.within (ClosesLoop.mem_of_minus member loses))
  obtain ⟨shifted, result, distinct, mem_iff, amount⟩ :=
    foldlM_shift_eq_ok theta nodup losing
  have entered : ∀ cell ∈ shifted.cells, cell ∈ amounts.cells ∨ cell = entering := by
    intro cell member
    rcases (mem_iff cell).mp member with old | walked
    · exact .inl old
    · rw [loopAlong, List.map_cons, map_cell_alternate, List.mem_cons] at walked
      exact walked.symm.imp_left fun walk => held (closes.within walk)
  unfold BasicPlan.shiftAround
  rw [result, ok_bind]
  cases leaving with
  | none => exact ⟨_, rfl, distinct, entered, amount⟩
  | some leaving =>
      refine ⟨_, rfl, Amounts.nodup_filter _ distinct, fun cell member => ?_, fun cell => ?_⟩
      · exact entered cell (Amounts.mem_cells_erase.mp member).1
      · rw [Amounts.getOrZero_erase distinct]
        split
        next same =>
            subst same
            exact (emptied _ rfl).symm
        next => exact amount cell

/-- A shift changes the cost of a plan by what the loop costs for each unit. -/
theorem tableTotal_shifted {value : Cell → Int} {next : Amounts Int} {loop : List LoopCell}
    (inTable : ∀ step ∈ loop, step.cell.InTable rows cols) {theta : Int}
    (amount : ∀ cell, next.getOrZero cell =
      amounts.getOrZero cell + theta * loopWeight loop cell) :
    tableTotal rows cols (fun cell => value cell * next.getOrZero cell) =
      tableTotal rows cols (fun cell => value cell * amounts.getOrZero cell) +
        theta * signedSum loop value := by
  have parts : (fun cell => value cell * next.getOrZero cell) = fun cell =>
      value cell * amounts.getOrZero cell + theta * (value cell * loopWeight loop cell) := by
    funext cell
    rw [amount]
    ring
  rw [parts, tableTotal_add, tableTotal_mul, tableTotal_loopWeight inTable]

end Shifts

/-- On a spanning tree the reduced cost of a cell is the signed cost of the loop that the
cell closes.  Any amount can be shifted around the loop of any plan that holds the basic
cells, and as long as a cell that leaves is emptied, the cost of the plan changes by the
amount times the reduced cost. -/
theorem reduced_cost_is_loop_cost {rows cols : Nat} {cost : Table Int} {basis : List Cell}
    {entering : Cell} (shaped : cost.Shaped rows cols) (tree : SpanningTree rows cols basis)
    (inTable : entering.InTable rows cols) :
    ∃ potentials reduced loop,
      Potentials.ofBasis (cost.mapEntries Number.integer) basis rows cols = .ok potentials ∧
      potentials.reducedCosts (cost.mapEntries Number.integer) = .ok reduced ∧
      loopThrough basis entering = .ok loop ∧
      reduced.entry entering = .ok (some (.integer (signedSum loop cost.price))) ∧
      ∀ (amounts : Amounts Int) (theta : Int) (leaving : Option Cell),
        amounts.cells.Nodup → basis ⊆ amounts.cells →
        (∀ cell ∈ amounts.cells, cell.InTable rows cols) →
        (∀ cell, leaving = some cell →
          amounts.getOrZero cell + theta * loopWeight loop cell = 0) →
        ∃ (next : BasicPlan Int) (total : Int),
          (BasicPlan.map Number.integer ⟨basis, amounts⟩).shiftAround loop (.integer theta)
            leaving = .ok (next.map Number.integer) ∧
          totalCost (cost.mapEntries Number.integer)
            (amounts.mapAmounts Number.integer).allocations = .ok (.integer total) ∧
          totalCost (cost.mapEntries Number.integer)
            (next.map Number.integer).amounts.allocations =
              .ok (.integer (total + theta * signedSum loop cost.price)) := by
  have embedding := Scalar.integer_embedding
  have positive : 0 < rows := Nat.zero_lt_of_lt inTable.1
  obtain ⟨price, prices, origin⟩ := tree.loopless.exists_prices_from cost tree.nodup 0
  obtain ⟨cells, found, closes⟩ := loopThrough_eq_ok (tree.joined _ _ inTable.1 inTable.2)
  have loopInTable := closes.inTable tree.inTable inTable
  refine ⟨(Potentials.priced rows cols price).map Number.integer,
    (reducedTable cost price).mapEntries (Option.map Number.integer),
    loopAlong entering cells, ?_, ?_, found, ?_, ?_⟩
  · rw [Potentials.ofBasis_map embedding,
      Potentials.ofBasis_eq_ok shaped positive tree prices origin, map_ok]
  · rw [Potentials.reducedCosts_map embedding, reducedCosts_eq_ok shaped, map_ok]
  · have member := (mem_entries_reducedTable shaped).mpr
      ⟨inTable, (rfl : _ = some (reducedPrice cost price entering))⟩
    rw [closes.signedSum_cost prices, Table.entry_mapEntries,
      Table.entry_of_mem_entries member]
    rfl
  · intro amounts theta leaving nodup held amountsInTable emptied
    obtain ⟨next, result, distinct, entered, amount⟩ :=
      closes.shiftAround_eq_ok nodup held theta emptied
    have nextInTable : ∀ cell ∈ next.amounts.cells, cell.InTable rows cols := by
      intro cell member
      rcases entered cell member with old | rfl
      · exact amountsInTable cell old
      · exact inTable
    refine ⟨next, tableTotal rows cols fun cell => cost.price cell * amounts.getOrZero cell,
      ?_, ?_, ?_⟩
    · rw [BasicPlan.shiftAround_map embedding, result, map_ok]
    · rw [Amounts.allocations_mapAmounts, totalCost_map embedding,
        Amounts.totalCost_allocations shaped nodup amountsInTable, map_ok]
    · rw [BasicPlan.map, Amounts.allocations_mapAmounts, totalCost_map embedding,
        Amounts.totalCost_allocations shaped distinct nextInTable, map_ok,
        tableTotal_shifted loopInTable amount]

theorem square_loop_saves_one :
    ∃ potentials reduced loop,
      Potentials.ofBasis (Table.mapEntries Number.integer [[4, 6], [2, 5]])
        [⟨0, 0⟩, ⟨1, 0⟩, ⟨1, 1⟩] 2 2 = .ok potentials ∧
      potentials.reducedCosts (Table.mapEntries Number.integer [[4, 6], [2, 5]]) =
        .ok reduced ∧
      loopThrough [⟨0, 0⟩, ⟨1, 0⟩, ⟨1, 1⟩] ⟨0, 1⟩ = .ok loop ∧
      reduced.entry ⟨0, 1⟩ = .ok (some (.integer (-1))) ∧
      ∃ (next : BasicPlan Int) (total : Int),
        (BasicPlan.map Number.integer ⟨[⟨0, 0⟩, ⟨1, 0⟩, ⟨1, 1⟩],
          [(⟨0, 0⟩, 3), (⟨1, 0⟩, 2), (⟨1, 1⟩, 2)]⟩).shiftAround loop (.integer 2)
            (some ⟨1, 1⟩) = .ok (next.map Number.integer) ∧
        totalCost (Table.mapEntries Number.integer [[4, 6], [2, 5]])
          (next.map Number.integer).amounts.allocations = .ok (.integer (total - 2)) := by
  let basis : List Cell := [⟨0, 0⟩, ⟨1, 0⟩, ⟨1, 1⟩]
  have shaped : Table.Shaped 2 2 ([[4, 6], [2, 5]] : Table Int) := by decide
  have accepted : acyclic basis = .ok basis := by cbv
  have tree : SpanningTree 2 2 basis :=
    (acyclic_eq_ok_iff.mp accepted).2.1.spanningTree (by decide)
      (by simp [basis, Cell.InTable]) (by decide) rfl
  obtain ⟨potentials, reduced, loop, prices, costs, found, entry, shifts⟩ :=
    reduced_cost_is_loop_cost shaped tree
      (by simp [Cell.InTable] : (⟨0, 1⟩ : Cell).InTable 2 2)
  have known : loopThrough basis ⟨0, 1⟩ = .ok (loopAlong ⟨0, 1⟩ [⟨0, 0⟩, ⟨1, 0⟩, ⟨1, 1⟩]) := by
    cbv
  obtain rfl := Except.ok.inj (found.symm.trans known)
  obtain ⟨next, total, shifted, _, changed⟩ :=
    shifts [(⟨0, 0⟩, 3), (⟨1, 0⟩, 2), (⟨1, 1⟩, 2)] 2 (some ⟨1, 1⟩) (by decide)
      (by simp [basis, Amounts.cells]) (by simp [Amounts.cells, Cell.InTable])
      (by rintro _ ⟨⟩; decide)
  refine ⟨potentials, reduced, _, prices, costs, found, entry, next, total, shifted, ?_⟩
  exact changed

end OptimalPlans.Transport
