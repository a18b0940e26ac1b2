import OptimalPlans.Proofs.Exactness
import OptimalPlans.Proofs.Transport.LineGraph
import OptimalPlans.Transport.Plan

/-!
# What a plan ships

A list of allocations and a list of amounts are two ways to say how much every cell
ships.  Merging allocations and listing positive amounts lead from one to the other, and
the cost of a plan is the sum of price times amount over the table.
-/

namespace OptimalPlans.Transport

/-- A table with so many rows, all of which are equally long. -/
structure Table.Shaped {α : Type} (rows cols : Nat) (table : Table α) : Prop where
  length_eq : table.length = rows
  row_length_eq : ∀ row ∈ table, row.length = cols

instance {α : Type} (rows cols : Nat) (table : Table α) : Decidable (table.Shaped rows cols) :=
  decidable_of_iff (table.length = rows ∧ ∀ row ∈ table, row.length = cols)
    ⟨fun ⟨length, lengths⟩ => ⟨length, lengths⟩,
      fun shaped => ⟨shaped.length_eq, shaped.row_length_eq⟩⟩

/-- The entry at a cell, zero outside the table. -/
def Table.price {α : Type} [Scalar α] (table : Table α) (cell : Cell) : α :=
  ((table[cell.row]?).bind (·[cell.col]?)).getD (Scalar.ofInt 0)

theorem entryAt_eq_ok {α : Type} {values : List α} {index : Nat}
    (bound : index < values.length) : entryAt values index = .ok values[index] := by
  simp [entryAt, bound]

theorem Table.Shaped.entry_eq_ok {α : Type} [Scalar α] {rows cols : Nat}
    {table : Table α} {cell : Cell} (shaped : table.Shaped rows cols)
    (inTable : cell.InTable rows cols) :
    table.entry cell = .ok (table.price cell) := by
  have rowBound : cell.row < table.length := by
    rw [shaped.length_eq]
    exact inTable.1
  have colBound : cell.col < table[cell.row].length := by
    rw [shaped.row_length_eq _ (List.getElem_mem rowBound)]
    exact inTable.2
  simp [Table.entry, Table.price, entryAt_eq_ok, rowBound, colBound]

/-! ## Amounts by cell -/

namespace Amounts

section Lookup

variable {α : Type} {amounts : Amounts α} {cell other : Cell}

theorem get?_nil : get? ([] : Amounts α) cell = none := rfl

theorem get?_cons (held : α) :
    get? ((other, held) :: amounts) cell =
      if other = cell then some held else get? amounts cell := by
  unfold get?
  rw [List.lookup_cons]
  by_cases same : other = cell
  · simp [same]
  · have different : (cell == other) = false := by simpa using Ne.symm same
    simp [same, different]

theorem get?_put (amount : α) :
    (amounts.put cell amount).get? other =
      if cell = other then some amount else amounts.get? other := by
  induction amounts with
  | nil => rw [put, get?_cons]
  | cons entry rest induction =>
      obtain ⟨first, held⟩ := entry
      by_cases same : first = cell
      · subst same
        by_cases found : first = other <;> simp [put, get?_cons, found]
      · simp only [put, if_neg same, get?_cons, induction]
        by_cases found : first = other
        · have different : cell ≠ other := fun equality => same (found.trans equality.symm)
          simp [found, different]
        · simp [found]

theorem get?_eq_none_iff : amounts.get? cell = none ↔ cell ∉ amounts.cells := by
  induction amounts with
  | nil => simp [cells, get?_nil]
  | cons entry rest induction =>
      obtain ⟨first, held⟩ := entry
      by_cases same : first = cell
      · simp [cells, get?_cons, same]
      · simpa [cells, get?_cons, same, Ne.symm same] using induction

theorem mem_cells_iff : cell ∈ amounts.cells ↔ ∃ held, amounts.get? cell = some held := by
  rw [← Option.isSome_iff_exists, ← Option.ne_none_iff_isSome, ne_eq, get?_eq_none_iff,
    not_not]

theorem cells_put (amount : α) :
    (amounts.put cell amount).cells =
      if cell ∈ amounts.cells then amounts.cells else amounts.cells ++ [cell] := by
  induction amounts with
  | nil => simp [put, cells]
  | cons entry rest induction =>
      obtain ⟨first, held⟩ := entry
      by_cases same : first = cell
      · simp [put, cells, same]
      · have different : cell ≠ first := Ne.symm same
        have heads : cells ((first, held) :: rest) = first :: cells rest := rfl
        have step : cells (put ((first, held) :: rest) cell amount) =
            first :: cells (put rest cell amount) := by
          simp [put, same, cells]
        rw [step, induction, heads]
        by_cases member : cell ∈ cells rest
        · simp [member]
        · simp [member, different]

theorem mem_cells_put (amount : α) :
    other ∈ (amounts.put cell amount).cells ↔ other = cell ∨ other ∈ amounts.cells := by
  rw [cells_put]
  split
  next held => exact ⟨.inr, fun either => either.elim (· ▸ held) id⟩
  next => simp [or_comm]

theorem nodup_put (amount : α) (nodup : amounts.cells.Nodup) :
    (amounts.put cell amount).cells.Nodup := by
  rw [cells_put]
  split
  next => exact nodup
  next absent =>
      simpa using nodup.concat absent

theorem get?_filter (keeps : Cell → α → Bool) (nodup : amounts.cells.Nodup) :
    get? (amounts.filter fun entry => keeps entry.1 entry.2) cell =
      (amounts.get? cell).filter (keeps cell) := by
  induction amounts with
  | nil => simp [get?_nil]
  | cons entry rest induction =>
      obtain ⟨first, held⟩ := entry
      have parts := List.nodup_cons.mp nodup
      have later := induction parts.2
      by_cases same : first = cell
      · subst same
        have absent : get? rest first = none := get?_eq_none_iff.mpr parts.1
        rw [absent] at later
        cases kept : keeps first held with
        | true => simp [kept, get?_cons, Option.filter]
        | false => simpa [kept, get?_cons, Option.filter] using later
      · cases kept : keeps first held with
        | true => simpa [kept, get?_cons, same] using later
        | false => simpa [kept, get?_cons, same] using later

theorem nodup_filter (keeps : Cell × α → Bool) (nodup : amounts.cells.Nodup) :
    (cells (amounts.filter keeps)).Nodup :=
  List.Nodup.sublist (List.filter_sublist.map _) nodup

theorem mem_cells_erase :
    other ∈ (amounts.erase cell).cells ↔ other ∈ amounts.cells ∧ other ≠ cell := by
  simp only [erase, cells, List.mem_map, List.mem_filter, decide_eq_true_eq]
  constructor
  · rintro ⟨entry, ⟨member, different⟩, rfl⟩
    exact ⟨⟨entry, member, rfl⟩, different⟩
  · rintro ⟨⟨entry, member, rfl⟩, different⟩
    exact ⟨entry, ⟨member, different⟩, rfl⟩

theorem get?_erase (nodup : amounts.cells.Nodup) :
    (amounts.erase cell).get? other =
      if other = cell then none else amounts.get? other := by
  have filtered : get? (amounts.filter fun entry => decide (entry.1 ≠ cell)) other =
      (amounts.get? other).filter fun _ => decide (other ≠ cell) :=
    get?_filter (fun kept _ => decide (kept ≠ cell)) nodup
  rw [erase, filtered]
  by_cases same : other = cell
  · cases amounts.get? other <;> simp [same]
  · cases amounts.get? other <;> simp [same]

end Lookup

section Integers

variable {amounts : Amounts Int} {cell other : Cell}

theorem getOrZero_nil : getOrZero ([] : Amounts Int) cell = 0 := rfl

theorem getOrZero_cons (held : Int) :
    getOrZero ((other, held) :: amounts) cell =
      if other = cell then held else getOrZero amounts cell := by
  unfold getOrZero
  rw [get?_cons]
  split <;> rfl

theorem getOrZero_of_mem (nodup : amounts.cells.Nodup) {entry : Cell × Int}
    (member : entry ∈ amounts) : amounts.getOrZero entry.1 = entry.2 := by
  induction amounts with
  | nil => cases member
  | cons first rest induction =>
      obtain ⟨absent, restNodup⟩ := List.nodup_cons.mp nodup
      rw [getOrZero_cons]
      rcases List.mem_cons.mp member with rfl | later
      · rw [if_pos rfl]
      · have different : first.1 ≠ entry.1 := by
          intro same
          apply absent
          exact List.mem_map.mpr ⟨entry, later, same.symm⟩
        rw [if_neg different, induction restNodup later]

theorem getOrZero_put (amount : Int) :
    (amounts.put cell amount).getOrZero other =
      if cell = other then amount else amounts.getOrZero other := by
  unfold getOrZero
  rw [get?_put]
  split <;> rfl

theorem getOrZero_of_absent (absent : cell ∉ amounts.cells) :
    amounts.getOrZero cell = 0 := by
  simp [getOrZero, get?_eq_none_iff.mpr absent]

theorem getOrZero_erase (nodup : amounts.cells.Nodup) :
    (amounts.erase cell).getOrZero other =
      if other = cell then 0 else amounts.getOrZero other := by
  unfold getOrZero
  rw [get?_erase nodup]
  split <;> rfl

theorem mem_cells_ensure :
    other ∈ (amounts.ensure cell).cells ↔ other = cell ∨ other ∈ amounts.cells := by
  unfold ensure
  split
  next held found =>
      have member : cell ∈ amounts.cells := mem_cells_iff.mpr ⟨held, found⟩
      exact ⟨.inr, fun either => either.elim (· ▸ member) id⟩
  next => exact mem_cells_put _

theorem nodup_ensure (nodup : amounts.cells.Nodup) :
    (amounts.ensure cell).cells.Nodup := by
  unfold ensure
  split
  next => exact nodup
  next => exact nodup_put _ nodup

theorem getOrZero_ensure :
    (amounts.ensure cell).getOrZero other = amounts.getOrZero other := by
  unfold ensure
  split
  next => rfl
  next missing =>
      rw [getOrZero_put]
      split
      next same =>
          subst same
          simp [getOrZero, missing]
      next => rfl

/-- Entering cells that ship nothing changes no amount. -/
theorem foldl_ensure (added : List Cell) (nodup : amounts.cells.Nodup) :
    (added.foldl ensure amounts).cells.Nodup ∧
      (∀ other, other ∈ (added.foldl ensure amounts).cells ↔
        other ∈ added ∨ other ∈ amounts.cells) ∧
      ∀ other, (added.foldl ensure amounts).getOrZero other = amounts.getOrZero other := by
  induction added generalizing amounts with
  | nil => simp [nodup]
  | cons cell added induction =>
      have ensured : (amounts.ensure cell).cells.Nodup := nodup_ensure nodup
      obtain ⟨kept, member, held⟩ := induction ensured
      refine ⟨kept, ?_, ?_⟩
      · intro other
        rw [List.foldl_cons, member, mem_cells_ensure, List.mem_cons]
        tauto
      · intro other
        rw [List.foldl_cons, held, getOrZero_ensure]

theorem sum_entries (nodup : amounts.cells.Nodup) (cell : Cell) :
    (amounts.map fun entry => if entry.1 = cell then entry.2 else 0).sum =
      amounts.getOrZero cell := by
  induction amounts with
  | nil => rfl
  | cons entry rest induction =>
      obtain ⟨first, held⟩ := entry
      have parts := List.nodup_cons.mp nodup
      rw [List.map_cons, List.sum_cons, induction parts.2, getOrZero_cons]
      by_cases same : first = cell
      · subst same
        have absent : getOrZero rest first = 0 := getOrZero_of_absent parts.1
        simp [absent]
      · simp [same]

end Integers

end Amounts

/-! ## Allocations by cell -/

/-- The amount that a list of allocations ships from a row to a column. -/
def shipped (allocations : List (Allocation Int)) (cell : Cell) : Int :=
  (allocations.map fun allocation =>
    if allocation.cell = cell then allocation.amount else 0).sum

theorem shipped_nil (cell : Cell) : shipped [] cell = 0 := rfl

theorem shipped_cons (allocation : Allocation Int) (rest : List (Allocation Int))
    (cell : Cell) :
    shipped (allocation :: rest) cell =
      (if allocation.cell = cell then allocation.amount else 0) + shipped rest cell := by
  simp [shipped]

theorem shipped_perm {left right : List (Allocation Int)} (permutation : left.Perm right)
    (cell : Cell) : shipped left cell = shipped right cell :=
  (permutation.map _).sum_eq

namespace Amounts

theorem keepPositive_eq_ok (amounts : Amounts Int) :
    amounts.keepPositive = .ok (amounts.filter fun entry => decide (0 < entry.2)) :=
  Scalar.filterBy_eq_ok fun _ _ => rfl

theorem getOrZero_filter_positive {amounts : Amounts Int} (nodup : amounts.cells.Nodup)
    (cell : Cell) :
    getOrZero (amounts.filter fun entry => decide (0 < entry.2)) cell =
      max 0 (amounts.getOrZero cell) := by
  have filtered : get? (amounts.filter fun entry => decide (0 < entry.2)) cell =
      (amounts.get? cell).filter fun held => decide (0 < held) :=
    get?_filter (fun _ held => decide (0 < held)) nodup
  unfold getOrZero
  rw [filtered]
  cases amounts.get? cell with
  | none => simp
  | some held =>
      by_cases shipping : 0 < held
      · simp [Option.filter, shipping, shipping.le]
      · simp [Option.filter, shipping, not_lt.mp shipping]

/-- Adds an allocation to the amounts. -/
def enter (amounts : Amounts Int) (allocation : Allocation Int) : Amounts Int :=
  amounts.put allocation.cell (amounts.getOrZero allocation.cell + allocation.amount)

theorem getOrZero_foldl_enter (allocations : List (Allocation Int)) (amounts : Amounts Int)
    (cell : Cell) :
    (allocations.foldl enter amounts).getOrZero cell =
      amounts.getOrZero cell + shipped allocations cell := by
  induction allocations generalizing amounts with
  | nil => simp [shipped_nil]
  | cons allocation rest induction =>
      rw [List.foldl_cons, induction, shipped_cons, enter, getOrZero_put]
      split
      next same =>
          rw [same]
          omega
      next => omega

theorem mem_cells_foldl_enter {allocations : List (Allocation Int)}
    {amounts : Amounts Int} {cell : Cell}
    (member : cell ∈ (allocations.foldl enter amounts).cells) :
    cell ∈ amounts.cells ∨ ∃ allocation ∈ allocations, allocation.cell = cell := by
  induction allocations generalizing amounts with
  | nil => exact .inl member
  | cons allocation rest induction =>
      rcases induction member with entered | ⟨later, laterMember, same⟩
      · rcases (mem_cells_put _).mp entered with rfl | old
        · exact .inr ⟨allocation, by simp, rfl⟩
        · exact .inl old
      · exact .inr ⟨later, by simp [laterMember], same⟩

theorem nodup_foldl_enter (allocations : List (Allocation Int)) {amounts : Amounts Int}
    (nodup : amounts.cells.Nodup) : (allocations.foldl enter amounts).cells.Nodup := by
  induction allocations generalizing amounts with
  | nil => exact nodup
  | cons allocation rest induction => exact induction (nodup_put _ nodup)

/-- The amounts of a list of allocations, where they are positive. -/
def merged (allocations : List (Allocation Int)) : Amounts Int :=
  (allocations.foldl enter []).filter fun entry => decide (0 < entry.2)

theorem merge_eq_ok (allocations : List (Allocation Int)) :
    merge allocations = .ok (merged allocations) := by
  have collects : allocations.foldlM (fun (amounts : Amounts Int) allocation => do
      let amount ← Scalar.add (amounts.getOrZero allocation.cell) allocation.amount
      return amounts.put allocation.cell amount) [] =
        (.ok (allocations.foldl enter []) : Except Fault _) :=
    foldlM_eq_ok enter fun _ _ _ => rfl
  simp only [merge, collects, ok_bind]
  exact keepPositive_eq_ok _

theorem nodup_merged (allocations : List (Allocation Int)) :
    (merged allocations).cells.Nodup :=
  nodup_filter _ (nodup_foldl_enter allocations List.nodup_nil)

theorem getOrZero_merged (allocations : List (Allocation Int)) (cell : Cell) :
    (merged allocations).getOrZero cell = max 0 (shipped allocations cell) := by
  have nodup : (allocations.foldl enter []).cells.Nodup :=
    nodup_foldl_enter allocations List.nodup_nil
  rw [merged, getOrZero_filter_positive nodup, getOrZero_foldl_enter, getOrZero_nil,
    zero_add]

theorem mem_cells_merged {allocations : List (Allocation Int)} {cell : Cell}
    (member : cell ∈ (merged allocations).cells) :
    ∃ allocation ∈ allocations, allocation.cell = cell := by
  obtain ⟨entry, kept, rfl⟩ := List.mem_map.mp member
  have entered : entry.1 ∈ (allocations.foldl enter []).cells :=
    List.mem_map.mpr ⟨entry, (List.mem_filter.mp kept).1, rfl⟩
  simpa [cells] using mem_cells_foldl_enter entered

theorem cells_merged_subset (allocations : List (Allocation Int)) :
    (merged allocations).cells ⊆ allocations.map (·.cell) := by
  intro cell member
  obtain ⟨allocation, listed, rfl⟩ := mem_cells_merged member
  exact List.mem_map_of_mem listed

/-- The positive amounts in row-major order. -/
def positiveAllocations (amounts : Amounts Int) : List (Allocation Int) :=
  ((sort amounts).filter fun entry => decide (0 < entry.2)).map
    fun entry => ⟨entry.1, entry.2⟩

theorem positive_eq_ok (amounts : Amounts Int) :
    amounts.positive = .ok amounts.positiveAllocations := by
  simp [positive, keepPositive_eq_ok, positiveAllocations]

theorem mem_positiveAllocations {amounts : Amounts Int} {allocation : Allocation Int}
    (member : allocation ∈ amounts.positiveAllocations) :
    allocation.cell ∈ amounts.cells ∧ 0 < allocation.amount := by
  obtain ⟨entry, kept, rfl⟩ := List.mem_map.mp member
  obtain ⟨sorted, positive⟩ := List.mem_filter.mp kept
  have held : entry ∈ amounts := (List.mergeSort_perm amounts _).mem_iff.mp sorted
  exact ⟨List.mem_map.mpr ⟨entry, held, rfl⟩, by simpa using positive⟩

theorem nodup_positiveAllocations {amounts : Amounts Int} (nodup : amounts.cells.Nodup) :
    (amounts.positiveAllocations.map (·.cell)).Nodup := by
  have sorted : (cells (sort amounts)).Perm amounts.cells :=
    (List.mergeSort_perm amounts _).map _
  have listed : amounts.positiveAllocations.map (·.cell) =
      cells ((sort amounts).filter fun entry => decide (0 < entry.2)) := by
    rw [positiveAllocations, List.map_map]
    rfl
  rw [listed]
  exact nodup_filter _ (sorted.nodup_iff.mpr nodup)

/-- Listing the positive amounts drops nothing that is shipped. -/
theorem shipped_positiveAllocations {amounts : Amounts Int} (nodup : amounts.cells.Nodup)
    (cell : Cell) :
    shipped amounts.positiveAllocations cell = max 0 (amounts.getOrZero cell) := by
  have permutation := ((List.mergeSort_perm amounts
    fun left right => left.1.le right.1).filter fun entry => decide (0 < entry.2)).map
      fun entry => (⟨entry.1, entry.2⟩ : Allocation Int)
  calc shipped amounts.positiveAllocations cell
      = shipped ((amounts.filter fun entry => decide (0 < entry.2)).map
          fun entry => ⟨entry.1, entry.2⟩) cell := shipped_perm permutation cell
    _ = getOrZero (amounts.filter fun entry => decide (0 < entry.2)) cell := by
        rw [← sum_entries (nodup_filter _ nodup), shipped, List.map_map]
        rfl
    _ = max 0 (amounts.getOrZero cell) := getOrZero_filter_positive nodup cell

end Amounts

end OptimalPlans.Transport
