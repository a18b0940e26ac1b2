import OptimalPlans.Proofs.Transport.Restart

/-!
# The canonical form of a plan

A list of allocations may enter a cell many times, and with any sign.  Merging sums the
entries of every cell and keeps the cells whose sum is positive; listed by rows, they are a
canonical form, which depends only on what the cells ship.  The full table of amounts keeps
the negative sums too, so where there are none the three views of a plan agree, and they cost
the same, unless prices are rounded.
-/

namespace OptimalPlans.Transport

/-! ## Merged amounts -/

namespace Amounts

/-- A cell is entered with its sum where that is positive. -/
theorem get?_merged_eq_some_iff {allocations : List (Allocation Int)} {cell : Cell}
    {amount : Int} :
    (merged allocations).get? cell = some amount ↔
      shipped allocations cell = amount ∧ 0 < amount := by
  have nodup : (allocations.foldl enter []).cells.Nodup :=
    nodup_foldl_enter allocations List.nodup_nil
  have total := getOrZero_foldl_enter allocations [] cell
  rw [getOrZero_nil, zero_add, getOrZero] at total
  rw [merged, get?_filter (fun _ held => decide (0 < held)) nodup, ← total,
    Option.filter_eq_some_iff, decide_eq_true_iff]
  cases (allocations.foldl enter []).get? cell with
  | none =>
      constructor
      · rintro ⟨missing, _⟩
        cases missing
      · rintro ⟨rfl, positive⟩
        exact absurd positive (lt_irrefl 0)
  | some held => rw [Option.getD_some, Option.some.injEq]

/-- The positive amounts that are left when allocations are merged. -/
def canonical (allocations : List (Allocation Int)) : List (Allocation Int) :=
  (merged allocations).positiveAllocations

theorem shipped_canonical (allocations : List (Allocation Int)) (cell : Cell) :
    shipped (canonical allocations) cell = max 0 (shipped allocations cell) := by
  rw [canonical, shipped_positiveAllocations (nodup_merged allocations), getOrZero_merged,
    max_eq_right (le_max_left 0 _)]

/-- The canonical form depends only on the cells that ship something. -/
theorem canonical_congr {allocations others : List (Allocation Int)}
    (same : ∀ cell, max 0 (shipped allocations cell) = max 0 (shipped others cell)) :
    canonical allocations = canonical others := by
  refine positiveAllocations_congr (nodup_merged _) (nodup_merged _) ?_
  funext cell
  rw [getOrZero_merged, getOrZero_merged, same]

theorem canonical_perm {allocations others : List (Allocation Int)}
    (permutation : allocations.Perm others) : canonical allocations = canonical others :=
  canonical_congr fun cell => by rw [shipped_perm permutation]

theorem canonical_canonical (allocations : List (Allocation Int)) :
    canonical (canonical allocations) = canonical allocations :=
  canonical_congr fun cell => by
    rw [shipped_canonical, max_eq_right (le_max_left 0 _)]

theorem get?_merged_canonical (allocations : List (Allocation Int)) (cell : Cell) :
    (merged (canonical allocations)).get? cell = (merged allocations).get? cell := by
  ext amount
  rw [get?_merged_eq_some_iff, get?_merged_eq_some_iff, shipped_canonical]
  omega

theorem pairwise_canonical (allocations : List (Allocation Int)) :
    ((canonical allocations).map (·.cell)).Pairwise Cell.Before := by
  have ascending := pairwise_positiveAllocations (merged allocations)
  have distinct := List.pairwise_map.mp
    (nodup_positiveAllocations (nodup_merged allocations))
  refine List.pairwise_map.mpr ((ascending.and distinct).imp ?_)
  rintro left right ⟨below, different⟩
  rw [Cell.le_iff] at below
  rw [ne_eq, Cell.eq_iff] at different
  unfold Cell.Before
  omega

theorem inTable_canonical {rows cols : Nat} {allocations : List (Allocation Int)}
    (inTable : ∀ allocation ∈ allocations, allocation.cell.InTable rows cols) :
    ∀ allocation ∈ canonical allocations, allocation.cell.InTable rows cols := by
  intro allocation member
  obtain ⟨source, listed, same⟩ := mem_cells_merged (mem_positiveAllocations member).1
  exact same ▸ inTable source listed

/-! ### Numbers -/

theorem merge_readAllocations (allocations : List (Allocation Int)) :
    merge (readAllocations allocations) =
      .ok ((merged allocations).mapAmounts Number.integer) := by
  rw [readAllocations, merge_map Scalar.integer_embedding, merge_eq_ok, map_ok]

theorem positive_mapAmounts_integer (amounts : Amounts Int) :
    (amounts.mapAmounts Number.integer).positive =
      .ok (readAllocations amounts.positiveAllocations) := by
  rw [positive_mapAmounts Scalar.integer_embedding, positive_eq_ok, map_ok]

theorem merge_positive_readAllocations (allocations : List (Allocation Int)) :
    (merge (readAllocations allocations) >>= positive) =
      .ok (readAllocations (canonical allocations)) := by
  rw [merge_readAllocations, ok_bind, positive_mapAmounts_integer, canonical]

end Amounts

/-! ## The full table -/

/-- The table with a given amount in every cell. -/
def Table.tabulate {α : Type} (rows cols : Nat) (amount : Cell → α) : Table α :=
  (List.range rows).map fun row => (List.range cols).map fun col => amount ⟨row, col⟩

section Dense

variable {rows cols : Nat} {amount : Cell → Int} {cell : Cell}

theorem Table.shaped_tabulate {α : Type} (amount : Cell → α) :
    (tabulate rows cols amount).Shaped rows cols := by
  refine ⟨by simp [tabulate], fun row member => ?_⟩
  obtain ⟨_, _, rfl⟩ := List.mem_map.mp member
  simp

theorem Table.price_tabulate (inTable : cell.InTable rows cols) :
    (tabulate rows cols amount).price cell = amount cell := by
  simp [price, tabulate, inTable.1, inTable.2]

theorem map_range_set {α : Type} (count index : Nat) (f : Nat → α) (value : α) :
    ((List.range count).map f).set index value =
      (List.range count).map (Function.update f index value) := by
  refine List.ext_getElem (by simp) fun place _ _ => ?_
  simp [List.getElem_set, Function.update_apply, eq_comm]

/-- Adding to an entry changes the amount of its cell only. -/
theorem Table.addAt_tabulate (inTable : cell.InTable rows cols) (added : Int) :
    (tabulate rows cols amount).addAt cell added =
      .ok (tabulate rows cols fun other =>
        amount other + if cell = other then added else 0) := by
  obtain ⟨row, col⟩ := cell
  have rowFound : entryAt (tabulate rows cols amount) row =
      .ok ((List.range cols).map fun col => amount ⟨row, col⟩) := by
    rw [entryAt_eq_ok (by simpa [tabulate] using inTable.1)]
    simp [tabulate]
  have colFound : entryAt ((List.range cols).map fun col => amount ⟨row, col⟩) col =
      .ok (amount ⟨row, col⟩) := by
    rw [entryAt_eq_ok (by simpa using inTable.2)]
    simp
  have total : Scalar.add (amount ⟨row, col⟩) added = .ok (amount ⟨row, col⟩ + added) := rfl
  rw [addAt, rowFound, ok_bind, colFound, ok_bind, total, ok_bind, tabulate, map_range_set,
    map_range_set]
  refine congrArg Except.ok (List.map_congr_left fun otherRow _ => ?_)
  by_cases sameRow : otherRow = row
  · subst sameRow
    rw [Function.update_self]
    refine List.map_congr_left fun otherCol _ => ?_
    by_cases sameCol : otherCol = col
    · subst sameCol
      simp
    · simp [Function.update_of_ne sameCol, Ne.symm sameCol]
  · simp [Function.update_of_ne sameRow, Ne.symm sameRow]

/-- Entering allocations adds what they ship to every cell. -/
theorem foldlM_addAt_tabulate {allocations : List (Allocation Int)}
    (inTable : ∀ allocation ∈ allocations, allocation.cell.InTable rows cols) :
    allocations.foldlM (fun table allocation =>
        Table.addAt table allocation.cell allocation.amount)
        (Table.tabulate rows cols amount) =
      (.ok (Table.tabulate rows cols fun cell => amount cell + shipped allocations cell) :
        Except Fault _) := by
  induction allocations generalizing amount with
  | nil => simp [shipped_nil]
  | cons allocation rest induction =>
      rw [List.foldlM_cons, Table.addAt_tabulate (inTable allocation (by simp)), ok_bind,
        induction fun other member => inTable other (by simp [member])]
      simp only [shipped_cons, add_assoc]

/-- The full table holds what every cell ships. -/
theorem toTable_eq_tabulate {allocations : List (Allocation Int)}
    (inTable : ∀ allocation ∈ allocations, allocation.cell.InTable rows cols) :
    toTable rows cols allocations =
      .ok (Table.tabulate rows cols (shipped allocations)) := by
  have empty : List.replicate rows (List.replicate cols (Scalar.ofInt 0 : Int)) =
      Table.tabulate rows cols fun _ => 0 := by
    simp only [Table.tabulate, List.map_const', List.length_range]
    rfl
  rw [toTable, empty, foldlM_addAt_tabulate inTable]
  simp only [zero_add]

end Dense

section Maps

variable {α β : Type} [Scalar α] [Scalar β] {embed : α → β}
variable (embedding : Scalar.Embedding embed)
include embedding

theorem Table.addAt_mapEntries (table : Table α) (cell : Cell) (added : α) :
    (table.mapEntries embed).addAt cell (embed added) =
      (table.addAt cell added).map (mapEntries embed) := by
  unfold addAt
  refine bind_agrees (entryAt_map _ table cell.row) fun row => ?_
  refine bind_agrees (entryAt_map embed row cell.col) fun held => ?_
  refine bind_agrees (embedding.add held added) fun total => ?_
  simp [mapEntries, List.map_set]

theorem toTable_map (rows cols : Nat) (allocations : List (Allocation α)) :
    toTable rows cols (allocations.map (Allocation.map embed)) =
      (toTable rows cols allocations).map (Table.mapEntries embed) := by
  refine foldlM_map (fun table allocation => ?_) allocations ?_
  · exact Table.addAt_mapEntries embedding table allocation.cell allocation.amount
  · simp [Table.mapEntries, embedding.ofInt]

end Maps

theorem toTable_readAllocations {rows cols : Nat} {allocations : List (Allocation Int)}
    (inTable : ∀ allocation ∈ allocations, allocation.cell.InTable rows cols) :
    toTable rows cols (readAllocations allocations) =
      .ok ((Table.tabulate rows cols (shipped allocations)).mapEntries Number.integer) := by
  rw [readAllocations, toTable_map Scalar.integer_embedding, toTable_eq_tabulate inTable, map_ok]

/-! ## Costs -/

section Costs

variable {rows cols : Nat} {allocations : List (Allocation Int)}

/-- At whole prices a plan costs as much as its full table. -/
theorem totalCost_readAllocations {cost : Table Int} (shaped : cost.Shaped rows cols)
    (inTable : ∀ allocation ∈ allocations, allocation.cell.InTable rows cols) :
    totalCost (cost.mapEntries Number.integer) (readAllocations allocations) =
      .ok (.integer (tableTotal rows cols fun cell =>
        (Table.tabulate rows cols (shipped allocations)).price cell * cost.price cell)) := by
  rw [readAllocations, totalCost_map Scalar.integer_embedding, totalCost_eq_ok shaped inTable,
    map_ok]
  refine congrArg (fun total => Except.ok (Number.integer total)) ?_
  refine tableTotal_congr fun cell cellInTable => ?_
  rw [Table.price_tabulate cellInTable, mul_comm]

/-- The same holds at rational prices, without rounding. -/
theorem totalCost_cast {cost : Table Rat} (shaped : cost.Shaped rows cols)
    (inTable : ∀ allocation ∈ allocations, allocation.cell.InTable rows cols) :
    totalCost cost (allocations.map (Allocation.map Int.cast)) =
      .ok (tableTotal rows cols fun cell =>
        ((Table.tabulate rows cols (shipped allocations)).price cell : Rat) *
          cost.price cell) := by
  have folded : totalCost cost (allocations.map (Allocation.map Int.cast)) =
      .ok (allocations.foldl (fun total allocation =>
        total + (allocation.amount : Rat) * cost.price allocation.cell) 0) := by
    unfold totalCost
    rw [List.foldlM_map]
    refine foldlM_eq_ok _ fun allocation member total => ?_
    rw [Allocation.map, shaped.entry_eq_ok (inTable allocation member), ok_bind]
    rfl
  have valued := sum_valued (fun cell =>
    (AddMonoidHom.mulRight (cost.price cell)).comp (Int.castAddHom Rat)) inTable
  rw [List.sum_eq_foldl, List.foldl_map] at valued
  rw [folded]
  refine congrArg Except.ok (valued.trans (tableTotal_congr fun cell cellInTable => ?_))
  rw [Table.price_tabulate cellInTable]
  rfl

end Costs

/-- Whatever cells a list of whole allocations repeats, merging it gives every cell its sum
where that is positive.  The positive amounts are listed in strictly ascending order of their
cells, any order of the list gives the same ones, and merging them changes nothing.  The full
table of the list has its sums; where none of them is negative, the list, the merged one and
the full table cost the same, at whole prices as well as at rational ones that are not
rounded. -/
theorem merged_plan_is_canonical {rows cols : Nat} {allocations : List (Allocation Int)}
    (inTable : ∀ allocation ∈ allocations, allocation.cell.InTable rows cols) :
    ∃ (amounts : Amounts Int) (listed : List (Allocation Int)) (table : Table Int),
      Amounts.merge (readAllocations allocations) = .ok (amounts.mapAmounts Number.integer) ∧
      amounts.cells.Nodup ∧
      (∀ cell amount, amounts.get? cell = some amount ↔
        shipped allocations cell = amount ∧ 0 < amount) ∧
      (amounts.mapAmounts Number.integer).positive = .ok (readAllocations listed) ∧
      (listed.map (·.cell)).Pairwise Cell.Before ∧
      (∀ others : List (Allocation Int), others.Perm allocations →
        (Amounts.merge (readAllocations others) >>= Amounts.positive) =
          .ok (readAllocations listed)) ∧
      (∃ again : Amounts Int,
        Amounts.merge (readAllocations listed) = .ok (again.mapAmounts Number.integer) ∧
        again.cells.Nodup ∧ (∀ cell, again.get? cell = amounts.get? cell) ∧
        (again.mapAmounts Number.integer).positive = .ok (readAllocations listed)) ∧
      table.Shaped rows cols ∧
      toTable rows cols (readAllocations allocations) = .ok (table.mapEntries Number.integer) ∧
      ((∀ cell, 0 ≤ shipped allocations cell) →
        toTable rows cols (readAllocations listed) = .ok (table.mapEntries Number.integer) ∧
        (∀ cost : Table Int, cost.Shaped rows cols → ∃ total : Int,
          totalCost (cost.mapEntries Number.integer) (readAllocations allocations) =
            .ok (.integer total) ∧
          totalCost (cost.mapEntries Number.integer) (readAllocations listed) =
            .ok (.integer total) ∧
          total = tableTotal rows cols fun cell => table.price cell * cost.price cell) ∧
        ∀ cost : Table Rat, cost.Shaped rows cols → ∃ total : Rat,
          totalCost cost (allocations.map (Allocation.map Int.cast)) = .ok total ∧
          totalCost cost (listed.map (Allocation.map Int.cast)) = .ok total ∧
          total = tableTotal rows cols fun cell => table.price cell * cost.price cell) := by
  have listedInTable := Amounts.inTable_canonical inTable
  refine ⟨Amounts.merged allocations, Amounts.canonical allocations,
    Table.tabulate rows cols (shipped allocations), Amounts.merge_readAllocations allocations,
    Amounts.nodup_merged allocations, fun _ _ => Amounts.get?_merged_eq_some_iff,
    Amounts.positive_mapAmounts_integer _, Amounts.pairwise_canonical allocations,
    fun others permutation => ?_, ?_, Table.shaped_tabulate _, toTable_readAllocations inTable,
    fun nonneg => ?_⟩
  · rw [Amounts.merge_positive_readAllocations, Amounts.canonical_perm permutation]
  · refine ⟨_, Amounts.merge_readAllocations _, Amounts.nodup_merged _,
      Amounts.get?_merged_canonical allocations, ?_⟩
    rw [Amounts.positive_mapAmounts_integer, ← Amounts.canonical, Amounts.canonical_canonical]
  · have same : shipped (Amounts.canonical allocations) = shipped allocations := by
      funext cell
      rw [Amounts.shipped_canonical, max_eq_right (nonneg cell)]
    rw [← same]
    refine ⟨toTable_readAllocations listedInTable, fun cost shaped => ⟨_, ?_, ?_, rfl⟩,
      fun cost shaped => ⟨_, ?_, ?_, rfl⟩⟩
    · rw [totalCost_readAllocations shaped inTable, same]
    · exact totalCost_readAllocations shaped listedInTable
    · rw [totalCost_cast shaped inTable, same]
    · exact totalCost_cast shaped listedInTable

/-- Entries of four cells, of which two are entered twice and two ship nothing. -/
def mixedAllocations : List (Allocation Int) :=
  [⟨⟨0, 1⟩, 5⟩, ⟨⟨0, 0⟩, 3⟩, ⟨⟨0, 1⟩, -2⟩, ⟨⟨1, 1⟩, 0⟩, ⟨⟨1, 0⟩, -4⟩, ⟨⟨1, 0⟩, 4⟩]

theorem mixed_allocations_cost_twentySeven :
    ∃ listed : List (Allocation Int),
      (Amounts.merge (readAllocations mixedAllocations) >>= Amounts.positive) =
        .ok (readAllocations listed) ∧
      (listed.map (·.cell)).Pairwise Cell.Before ∧
      totalCost (Table.mapEntries Number.integer [[2, 7], [1, 1]]) (readAllocations listed) =
        .ok (.integer 27) := by
  have nonneg : ∀ cell, 0 ≤ shipped mixedAllocations cell := by
    intro cell
    simp only [mixedAllocations, shipped, List.map_cons, List.map_nil, List.sum_cons,
      List.sum_nil]
    split_ifs <;> simp_all
  have inTable : ∀ allocation ∈ mixedAllocations, allocation.cell.InTable 2 2 := by
    simp [mixedAllocations, Cell.InTable]
  obtain ⟨amounts, listed, table, merges, -, -, lists, ascending, -, -, -, -, costs⟩ :=
    merged_plan_is_canonical inTable
  obtain ⟨-, whole, -⟩ := costs nonneg
  obtain ⟨total, before, after, -⟩ := whole [[2, 7], [1, 1]] (by decide)
  have counted : totalCost (Table.mapEntries Number.integer [[2, 7], [1, 1]])
      (readAllocations mixedAllocations) = .ok (.integer 27) := by cbv
  refine ⟨listed, ?_, ascending, ?_⟩
  · rw [merges, ok_bind, lists]
  · rw [after, ← before, counted]

/-- A tenth, as near as a double comes to it. -/
def tenth : Number :=
  .double (Double.ofDecimal false 1 (-1))

/-- At prices that are rounded, the parts of an amount can cost more than the amount. -/
theorem rounded_parts_cost_more :
    ¬ ∀ (rows cols : Nat) (cost : Table Number) (allocations : List (Allocation Int)),
        cost.Shaped rows cols → (∀ row ∈ cost, ∀ unit ∈ row, unit.isFinite = .ok true) →
        (∀ allocation ∈ allocations, allocation.cell.InTable rows cols) →
        (∀ cell, 0 ≤ shipped allocations cell) →
        ∃ first second : Number,
          totalCost cost (readAllocations allocations) = .ok first ∧
          (Amounts.merge (readAllocations allocations) >>= Amounts.positive >>= totalCost cost) =
            .ok second ∧
          first.same second = true := by
  intro coincide
  let parts : List (Allocation Int) := [⟨⟨0, 0⟩, 3⟩, ⟨⟨0, 0⟩, -2⟩]
  have nonneg : ∀ cell, 0 ≤ shipped parts cell := by
    intro cell
    simp only [parts, shipped, List.map_cons, List.map_nil, List.sum_cons, List.sum_nil]
    split_ifs <;> simp
  have finite : ∀ row ∈ [[tenth]], ∀ unit ∈ row, unit.isFinite = .ok true := by
    decide +kernel
  obtain ⟨first, second, before, after, same⟩ :=
    coincide 1 1 [[tenth]] parts (by decide) finite (by simp [parts, Cell.InTable]) nonneg
  have differ : (do
      let first ← totalCost [[tenth]] (readAllocations parts)
      let second ← Amounts.merge (readAllocations parts) >>= Amounts.positive >>=
        totalCost [[tenth]]
      return first.same second) = .ok false := by decide +kernel
  rw [before, after, ok_bind, ok_bind, same] at differ
  cases differ

end OptimalPlans.Transport
