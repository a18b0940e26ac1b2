import OptimalPlans.Proofs.Faults
import OptimalPlans.Proofs.Transport.RefinementStep

/-!
# Faults of a refinement step

On a table of any costs, the steps of a refinement read no entry that is not there.  What
is left to fail is the arithmetic: an integer may be too large to be rounded.
-/

namespace OptimalPlans.Transport

variable {mayFail : Fault → Prop} {rows cols : Nat}

theorem yields_entryAt {α : Type} {values : List α} {index : Nat}
    (bound : index < values.length) : Yields mayFail (fun _ => True) (entryAt values index) :=
  Yields.of_eq_ok (entryAt_eq_ok bound) trivial

namespace Table.Shaped

variable {α : Type} {table : Table α}

theorem yields_entry (shaped : table.Shaped rows cols) {cell : Cell}
    (inTable : cell.InTable rows cols) : Yields mayFail (fun _ => True) (table.entry cell) := by
  have rowBound : cell.row < table.length := shaped.length_eq ▸ inTable.1
  have colBound : cell.col < table[cell.row].length := by
    rw [shaped.row_length_eq _ (List.getElem_mem rowBound)]
    exact inTable.2
  rw [Table.entry, entryAt_eq_ok rowBound, ok_bind]
  exact yields_entryAt colBound

/-- Entries of a table belong to its cells. -/
theorem inTable_of_mem_entries (shaped : table.Shaped rows cols) {entry : Cell × α}
    (member : entry ∈ table.entries) : entry.1.InTable rows cols := by
  obtain ⟨row, rowFound, colFound⟩ := Table.mem_entries_iff.mp member
  obtain ⟨rowBound, rfl⟩ := List.getElem?_eq_some_iff.mp rowFound
  obtain ⟨colBound, _⟩ := List.getElem?_eq_some_iff.mp colFound
  rw [shaped.row_length_eq _ (List.getElem_mem rowBound)] at colBound
  exact ⟨shaped.length_eq ▸ rowBound, colBound⟩

end Table.Shaped

/-! ## Prices -/

namespace Potentials

/-- Potentials with a place for every line of a table. -/
structure Sized {α : Type} (rows cols : Nat) (potentials : Potentials α) : Prop where
  rows_length : potentials.rows.length = rows
  cols_length : potentials.cols.length = cols

variable {cost : Table Number} {potentials : Potentials Number}

theorem yields_resolve (overflow : mayFail .integerTooLarge) (shaped : cost.Shaped rows cols)
    {cell : Cell} (inTable : cell.InTable rows cols) (sized : potentials.Sized rows cols) :
    Yields mayFail (Sized rows cols) (resolve cost potentials cell) := by
  obtain ⟨rowsLength, colsLength⟩ := sized
  unfold resolve
  refine (yields_entryAt (by rw [rowsLength]; exact inTable.1)).bind fun row _ => ?_
  refine (yields_entryAt (by rw [colsLength]; exact inTable.2)).bind fun col _ => ?_
  split
  · refine (shaped.yields_entry inTable).bind fun price _ => ?_
    exact (Number.yields_combine overflow _ _ price _).bind fun value _ =>
      ⟨rowsLength, by simpa using colsLength⟩
  · refine (shaped.yields_entry inTable).bind fun price _ => ?_
    exact (Number.yields_combine overflow _ _ price _).bind fun value _ =>
      ⟨by simpa using rowsLength, colsLength⟩
  · exact ⟨rowsLength, colsLength⟩

theorem yields_settle (overflow : mayFail .integerTooLarge) (shaped : cost.Shaped rows cols)
    {cells : List Cell} (inTable : ∀ cell ∈ cells, cell.InTable rows cols)
    (sized : potentials.Sized rows cols) :
    Yields mayFail (Sized rows cols) (settle cost cells potentials) := by
  induction size : potentials.unresolved using Nat.strong_induction_on
    generalizing potentials with
  | _ size induction =>
      have swept : Yields mayFail (Sized rows cols) (potentials.sweep cost cells) :=
        Yields.foldlM sized fun cell member state stateSized =>
          yields_resolve overflow shaped (inTable cell member) stateSized
      rw [settle]
      refine swept.bind fun next nextSized => ?_
      split
      next fewer => exact induction next.unresolved (size ▸ fewer) nextSized rfl
      next => exact nextSized

theorem yields_ofBasis (overflow : mayFail .integerTooLarge) (shaped : cost.Shaped rows cols)
    (positive : 0 < rows) {basis : List Cell}
    (inTable : ∀ cell ∈ basis, cell.InTable rows cols) :
    Yields mayFail (Sized rows cols) (ofBasis cost basis rows cols) := by
  have sorted : (Cell.sort basis).Perm basis := List.mergeSort_perm _ _
  cases rows with
  | zero => exact absurd positive (lt_irrefl 0)
  | succ later =>
      exact yields_settle overflow shaped
        (fun cell member => inTable cell (sorted.mem_iff.mp member)) ⟨by simp, by simp⟩

theorem yields_reducedCost (overflow : mayFail .integerTooLarge)
    (sized : potentials.Sized rows cols) (row : Option Number) {col : Nat} (bound : col < cols)
    (price : Number) :
    Yields mayFail (fun _ => True) (potentials.reducedCost row col price) := by
  unfold reducedCost
  cases row with
  | none => trivial
  | some u =>
      refine (yields_entryAt (by rw [sized.cols_length]; exact bound)).bind fun col _ => ?_
      cases col with
      | none => trivial
      | some v =>
          refine (Number.yields_combine overflow _ _ price u).bind fun rest _ => ?_
          exact (Number.yields_combine overflow _ _ rest v).bind fun _ _ => trivial

theorem yields_reducedCosts (overflow : mayFail .integerTooLarge)
    (shaped : cost.Shaped rows cols) (sized : potentials.Sized rows cols) :
    Yields mayFail (Table.Shaped rows cols) (potentials.reducedCosts cost) := by
  have eachCell : ∀ (u : Option Number) (units : List Number), units.length = cols →
      ∀ entry ∈ units.zipIdx,
        Yields mayFail (fun _ => True) (potentials.reducedCost u entry.2 entry.1) := by
    rintro u units width ⟨price, col⟩ member
    obtain ⟨bound, _⟩ :=
      List.getElem?_eq_some_iff.mp (List.mk_mem_zipIdx_iff_getElem?.mp member)
    exact yields_reducedCost overflow sized u (width ▸ bound) price
  have eachRow : ∀ entry ∈ cost.zipIdx, Yields mayFail (fun values => values.length = cols) (do
      let u ← entryAt potentials.rows entry.2
      entry.1.zipIdx.mapM fun entry => potentials.reducedCost u entry.2 entry.1) := by
    rintro ⟨units, row⟩ member
    obtain ⟨bound, rfl⟩ :=
      List.getElem?_eq_some_iff.mp (List.mk_mem_zipIdx_iff_getElem?.mp member)
    have width := shaped.row_length_eq _ (List.getElem_mem bound)
    have rowBound : row < potentials.rows.length := by
      rw [sized.rows_length, ← shaped.length_eq]
      exact bound
    refine (yields_entryAt rowBound).bind fun u _ => ?_
    refine (Yields.mapM (eachCell u cost[row] width)).mono fun values holds => ?_
    rw [holds.1, List.length_zipIdx, width]
  refine (Yields.mapM eachRow).mono fun values holds => ⟨?_, holds.2⟩
  rw [holds.1, List.length_zipIdx, shaped.length_eq]

end Potentials

/-! ## A step -/

/-- The cell that enters is one of the table outside the basis. -/
theorem yields_enteringCell {reduced : Table (Option Number)}
    (shaped : reduced.Shaped rows cols) (basis : List Cell) (tolerance : Number) :
    Yields mayFail (fun entering => ∀ cell, entering = some cell →
      cell.InTable rows cols ∧ cell ∉ basis) (enteringCell reduced basis tolerance) := by
  let known : Option Cell × Number → Prop := fun best =>
    ∀ cell, best.1 = some cell → cell.InTable rows cols ∧ cell ∉ basis
  have begins : known (none, tolerance.neg) := by simp [known]
  have negated : Scalar.neg tolerance = .ok tolerance.neg := rfl
  unfold enteringCell
  rw [negated, ok_bind]
  refine Yields.bind (Yields.foldlM begins ?_) fun best holds => holds
  rintro ⟨cell, value⟩ member best holds
  cases value with
  | none => exact holds
  | some value =>
      by_cases basic : cell ∈ basis
      · simpa [basic] using holds
      · have entered : known (some cell, value) := by
          intro other same
          obtain rfl := Option.some.inj same
          exact ⟨shaped.inTable_of_mem_entries member, basic⟩
        cases less : value.less best.2 with
        | true => simpa [basic, Scalar.less, less] using entered
        | false => simpa [basic, Scalar.less, less] using holds

theorem yields_totalCost (overflow : mayFail .integerTooLarge) {cost : Table Number}
    (shaped : cost.Shaped rows cols) {allocations : List (Allocation Number)}
    (inTable : ∀ allocation ∈ allocations, allocation.cell.InTable rows cols) :
    Yields mayFail (fun _ => True) (totalCost cost allocations) := by
  refine Yields.foldlM trivial fun allocation member total _ => ?_
  refine (shaped.yields_entry (inTable allocation member)).bind fun unit _ => ?_
  refine (Number.yields_combine overflow _ _ allocation.amount unit).bind fun part _ => ?_
  exact Number.yields_combine overflow _ _ total part

theorem yields_alternatives (problem : Problem Number) {reduced : Table (Option Number)}
    (shaped : reduced.Shaped problem.rows problem.cols) (basis : List Cell)
    (tolerance : Number) :
    Yields mayFail (fun _ => True) (alternatives problem basis reduced tolerance) := by
  refine (Yields.filterBy fun cell member => ?_).mono fun _ _ => trivial
  split
  · trivial
  · refine (shaped.yields_entry (Cell.mem_all_iff.mp member)).bind fun value _ => ?_
    cases value <;> trivial

end OptimalPlans.Transport
