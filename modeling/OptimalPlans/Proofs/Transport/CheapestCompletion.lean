import OptimalPlans.Proofs.Transport.InitialPlans
import OptimalPlans.Proofs.Transport.PivotInvariant

/-!
# The cheapest completion

A completion takes the cheapest cell that joins two lines, again and again.  Whatever other
cells complete the same forest to a spanning tree, the first cell taken is among them or can
be exchanged for one of them that is no cheaper.  So no completion costs less.
-/

namespace OptimalPlans.Transport

/-! ## Exchanging cells of a completion -/

/-- A spanning tree does not depend on the order of its cells. -/
theorem SpanningTree.perm {rows cols : Nat} {cells others : List Cell}
    (tree : SpanningTree rows cols cells) (permutation : others.Perm cells) :
    SpanningTree rows cols others := by
  constructor
  · intro cell member
    exact tree.inTable cell (permutation.subset member)
  · exact permutation.nodup_iff.mpr tree.nodup
  · exact tree.loopless.mono permutation.subset
  · intro left right leftInTable rightInTable
    exact (tree.joined left right leftInTable rightInTable).mono permutation.symm.subset

section Exchange

variable {rows cols : Nat} {basis others : List Cell} {cell : Cell}

/-- A spanning tree holds no cell whose lines a part of it joins without that cell. -/
theorem SpanningTree.not_mem_of_joined (tree : SpanningTree rows cols (basis ++ others))
    (joined : Joined basis (.row cell.row) (.col cell.col)) : cell ∉ others := by
  intro member
  have absent : cell ∉ basis := by
    intro held
    exact (List.nodup_append.mp tree.nodup).2.2 cell held cell member rfl
  apply tree.loopless.apart (List.mem_append_right basis member)
    (List.subset_append_left basis others) absent
  exact joined

/-- A cell that joins two lines replaces one of the cells of a completion. -/
theorem SpanningTree.exists_exchange (tree : SpanningTree rows cols (basis ++ others))
    (positive : 0 < rows) (inTable : cell.InTable rows cols)
    (apart : ¬ Joined basis (.row cell.row) (.col cell.col)) (absent : cell ∉ others) :
    ∃ leaving ∈ others, SpanningTree rows cols ((basis ++ [cell]) ++ others.erase leaving) := by
  have outside : cell ∉ basis ++ others := by
    intro member
    rcases List.mem_append.mp member with held | listed
    · exact apart (Joined.of_mem held)
    · exact absent listed
  have joined : Joined (basis ++ others) (.row cell.row) (.col cell.col) :=
    tree.joined _ _ inTable.1 inTable.2
  obtain ⟨walk, _, closes⟩ := loopThrough_eq_ok joined
  -- The walk around the new cell leaves the forest, since that does not join its lines.
  obtain ⟨leaving, leaves, notHeld⟩ : ∃ leaving ∈ walk, leaving ∉ basis := by
    by_contra! within
    exact apart (closes.leads.joined within)
  have listed : leaving ∈ others :=
    (List.mem_append.mp (closes.within leaves)).resolve_left notHeld
  have exchanged := tree.exchange positive inTable outside closes leaves
  have kept : (basis ++ others).filter (· ≠ leaving) = basis ++ others.erase leaving := by
    rw [filter_ne_eq_erase tree.nodup, List.erase_append_right _ notHeld]
  rw [kept] at exchanged
  refine ⟨leaving, listed, exchanged.perm ?_⟩
  rw [List.append_assoc, List.append_assoc]
  exact List.perm_append_comm.append_left basis

end Exchange

/-! ## The greedy completion -/

/-- Joining cells in the order of their prices completes a forest at no higher price than
any other cells from the list do. -/
theorem joiningCells_cheapest {rows cols : Nat} {price : Cell → Int} (positive : 0 < rows)
    {cells : List Cell} (ascends : cells.Pairwise fun left right => price left ≤ price right)
    (inTable : ∀ cell ∈ cells, cell.InTable rows cols) {basis others : List Cell}
    (tree : SpanningTree rows cols (basis ++ others)) (listed : others ⊆ cells) :
    ((joiningCells basis others.length cells).map price).sum ≤ (others.map price).sum := by
  induction cells generalizing basis others with
  | nil =>
      obtain rfl := List.subset_nil.mp listed
      exact le_rfl
  | cons cell cells induction =>
      obtain ⟨cheapest, laterAscends⟩ := List.pairwise_cons.mp ascends
      obtain ⟨cellInTable, laterInTable⟩ := List.forall_mem_cons.mp inTable
      have later : ∀ {other}, other ∈ others → other ≠ cell → other ∈ cells := by
        intro other member different
        exact List.mem_of_ne_of_mem different (listed member)
      cases size : others.length with
      | zero =>
          obtain rfl := List.length_eq_zero_iff.mp size
          exact le_rfl
      | succ missing =>
          by_cases joined : isJoined basis cell = true
          · have absent := tree.not_mem_of_joined (isJoined_iff.mp joined)
            rw [joiningCells, if_pos joined, ← size]
            apply induction laterAscends laterInTable tree
            intro other member
            exact later member fun same => absent (same ▸ member)
          · have apart : ¬ Joined basis (.row cell.row) (.col cell.col) :=
              fun reached => joined (isJoined_iff.mpr reached)
            rw [joiningCells, if_neg joined, List.map_cons, List.sum_cons]
            -- Either the cell is in the other completion, or it replaces a dearer one there.
            obtain ⟨leaving, leaves, dearer, exchanged, remaining⟩ : ∃ leaving ∈ others,
                price cell ≤ price leaving ∧
                SpanningTree rows cols ((basis ++ [cell]) ++ others.erase leaving) ∧
                others.erase leaving ⊆ cells := by
              by_cases member : cell ∈ others
              · refine ⟨cell, member, le_rfl, tree.perm ?_, ?_⟩
                · rw [List.append_assoc]
                  exact (List.perm_cons_erase member).symm.append_left basis
                · intro other kept
                  have distinct := (List.nodup_append.mp tree.nodup).2.1
                  obtain ⟨different, held⟩ := distinct.mem_erase_iff.mp kept
                  exact later held different
              · obtain ⟨leaving, leaves, exchanged⟩ :=
                  tree.exists_exchange positive cellInTable apart member
                have outside : ∀ other ∈ others, other ∈ cells := fun other held =>
                  later held fun same => member (same ▸ held)
                refine ⟨leaving, leaves, cheapest leaving (outside leaving leaves), exchanged, ?_⟩
                intro other kept
                exact outside other (List.mem_of_mem_erase kept)
            have rest := induction laterAscends laterInTable exchanged remaining
            rw [List.length_erase_of_mem leaves, size, Nat.add_sub_cancel] at rest
            calc price cell + ((joiningCells (basis ++ [cell]) missing cells).map price).sum
                ≤ price leaving + ((others.erase leaving).map price).sum := add_le_add dearer rest
              _ = (others.map price).sum := List.sum_map_erase price leaves

section Table

variable {rows cols : Nat} {costs : Table Int} {basis : List Cell}

theorem candidates_ascend (shaped : costs.Shaped rows cols) (basis : List Cell) :
    ∃ cells, candidates costs basis rows cols = .ok cells ∧
      (∀ cell, cell ∈ cells ↔ cell.InTable rows cols ∧ cell ∉ basis) ∧
      cells.Pairwise fun left right => costs.price left ≤ costs.price right := by
  have byPrice : ∀ left right : Int × Cell,
      Scalar.precedes left.1 right.1 = .ok (decide (left.1 < right.1)) :=
    fun left right => Scalar.precedes_int left.1 right.1
  obtain ⟨sorted, result, permutation, ascends⟩ :=
    Scalar.sortBy_ascends byPrice (pricedOutside costs basis rows cols)
  refine ⟨sorted.map (·.2), ?_, ?_, ?_⟩
  · rw [candidates_eq_sortBy shaped, result]
    rfl
  · intro cell
    rw [(permutation.map _).mem_iff]
    simp [mem_pricedOutside]
  · apply List.pairwise_map.mpr
    apply ascends.imp_of_mem
    intro left right leftMember rightMember below
    have leftPrice := (mem_pricedOutside.mp (permutation.subset leftMember)).2
    have rightPrice := (mem_pricedOutside.mp (permutation.subset rightMember)).2
    rwa [← leftPrice, ← rightPrice]

/-- A completion of a forest costs no more than any other one. -/
theorem completion_cheapest (shaped : costs.Shaped rows cols) (positive : 0 < rows)
    {added : List Cell} (completed : completion costs basis rows cols = .ok added)
    {others : List Cell} (tree : SpanningTree rows cols (basis ++ others)) :
    (added.map costs.price).sum ≤ (others.map costs.price).sum := by
  have counted := tree.length_add_one positive
  rw [List.length_append] at counted
  by_cases short : basis.length < rows + cols - 1
  · obtain ⟨cells, result, mem_cells, ascends⟩ := candidates_ascend shaped basis
    have missing : rows + cols - 1 - basis.length = others.length := by omega
    obtain rfl : joiningCells basis others.length cells = added := by
      simpa [completion, short, result, missing] using completed
    apply joiningCells_cheapest positive ascends _ tree
    · intro cell member
      apply (mem_cells cell).mpr
      constructor
      · exact tree.inTable cell (List.mem_append_right basis member)
      · intro held
        exact (List.nodup_append.mp tree.nodup).2.2 cell held cell member rfl
    · intro cell member
      exact ((mem_cells cell).mp member).1
  · obtain rfl : [] = added := by simpa [completion, short] using completed
    obtain rfl : others = [] := List.length_eq_zero_iff.mp (by omega)
    exact le_rfl

/-- Cells without a loop are completed to a spanning tree by cells that together cost no
more than any other cells that complete them to one. -/
theorem spanningBasis_completes_cheapest (shaped : costs.Shaped rows cols)
    (rowsPositive : 0 < rows) (colsPositive : 0 < cols) {cells : List Cell}
    (inTable : ∀ cell ∈ cells, cell.InTable rows cols) (loopless : Loopless cells)
    (nodup : cells.Nodup) :
    ∃ added, spanningBasis (costs.mapEntries Number.integer) cells rows cols =
        .ok (Cell.sort cells ++ added) ∧
      SpanningTree rows cols (Cell.sort cells ++ added) ∧
      ∀ others, SpanningTree rows cols (cells ++ others) →
        (added.map costs.price).sum ≤ (others.map costs.price).sum := by
  obtain ⟨added, _, completed, spans, tree⟩ := spanningBasis_eq_ok Scalar.precedes_int shaped
    rowsPositive colsPositive inTable loopless nodup
  rw [spanningBasis_mapEntries Scalar.integer_embedding]
  refine ⟨added, spans, tree, ?_⟩
  intro others completes
  have sorted : (Cell.sort cells).Perm cells := List.mergeSort_perm _ _
  apply completion_cheapest shaped rowsPositive completed
  exact completes.perm (sorted.append_right others)

/-- One cell of a table with a negative cost and with ties takes the cell of the negative
cost and then the first two of the three that cost one. -/
theorem corner_completes_cheapest :
    spanningBasis (Table.mapEntries Number.integer [[4, -6, 1], [2, 1, 1]]) [⟨0, 0⟩] 2 3 =
        .ok [⟨0, 0⟩, ⟨0, 1⟩, ⟨0, 2⟩, ⟨1, 1⟩] ∧
      ∀ others, SpanningTree 2 3 ([⟨0, 0⟩] ++ others) →
        -4 ≤ (others.map (Table.price [[4, -6, 1], [2, 1, 1]])).sum := by
  let costs : Table Int := [[4, -6, 1], [2, 1, 1]]
  let corner : List Cell := [⟨0, 0⟩]
  have shaped : costs.Shaped 2 3 := by decide
  have inTable : ∀ cell ∈ corner, cell.InTable 2 3 := by simp [corner, Cell.InTable]
  have accepted : acyclic corner = .ok corner := by cbv
  obtain ⟨-, loopless, nodup⟩ := acyclic_eq_ok_iff.mp accepted
  obtain ⟨added, spans, -, cheapest⟩ := spanningBasis_completes_cheapest shaped (by decide)
    (by decide) inTable loopless nodup
  have run : spanningBasis (costs.mapEntries Number.integer) corner 2 3 =
      .ok [⟨0, 0⟩, ⟨0, 1⟩, ⟨0, 2⟩, ⟨1, 1⟩] := by cbv
  have sorted : Cell.sort corner = corner := List.mergeSort_singleton _
  rw [run, sorted] at spans
  obtain rfl : [⟨0, 1⟩, ⟨0, 2⟩, ⟨1, 1⟩] = added := by simpa [corner] using spans
  exact ⟨run, cheapest⟩

end Table

end OptimalPlans.Transport
