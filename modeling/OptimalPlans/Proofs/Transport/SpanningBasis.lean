import OptimalPlans.Proofs.Transport.Shipment
import OptimalPlans.Proofs.Transport.TrailAdequacy
import OptimalPlans.Transport.Basis

/-!
# Completion of a forest to a spanning tree

Collecting cells accepts exactly the lists without repetition and without a loop.  The
completion of such a list joins cells until all lines of the table are joined, so that
the basis it yields is a spanning tree.
-/

namespace OptimalPlans.Transport

/-! ## Collecting cells -/

theorem acyclic_foldlM_iff {basis cells result : List Cell} (loopless : Loopless basis)
    (nodup : basis.Nodup) :
    cells.foldlM (fun basis cell =>
        if isJoined basis cell then .error .cyclicPlan else .ok (basis ++ [cell])) basis =
          (.ok result : Except Fault (List Cell)) ↔
      result = basis ++ cells ∧ Loopless (basis ++ cells) ∧ (basis ++ cells).Nodup := by
  induction cells generalizing basis with
  | nil => simpa [loopless, nodup] using eq_comm
  | cons cell cells induction =>
      by_cases joined : isJoined basis cell = true
      · -- The new cell closes a loop, unless it is a repetition.
        have refused : ¬ (Loopless (basis ++ cell :: cells) ∧
            (basis ++ cell :: cells).Nodup) := by
          rintro ⟨later, laterNodup⟩
          have absent : cell ∉ basis := fun member =>
            (List.nodup_append.mp laterNodup).2.2 cell member cell (by simp) rfl
          exact later.apart (by simp) (List.subset_append_left _ _) absent
            (isJoined_iff.mp joined)
        constructor
        · intro accepted
          simp [joined] at accepted
        · rintro ⟨_, both⟩
          exact absurd both refused
      · have apart : ¬ Joined basis (.row cell.row) (.col cell.col) :=
          fun reached => joined (isJoined_iff.mpr reached)
        have absent : cell ∉ basis := fun member => apart (Joined.of_mem member)
        have extended : (basis ++ [cell]).Nodup := by
          simpa using nodup.concat absent
        have later := induction (loopless.concat apart) extended
        rw [List.append_assoc, List.singleton_append] at later
        rw [List.foldlM_cons, if_neg joined, ok_bind]
        exact later

/-- Collecting cells accepts exactly the lists without repetition and without a loop. -/
theorem acyclic_eq_ok_iff {cells result : List Cell} :
    acyclic cells = .ok result ↔ result = cells ∧ Loopless cells ∧ cells.Nodup := by
  exact acyclic_foldlM_iff Loopless.nil List.nodup_nil

/-! ## Joining cells -/

theorem joiningCells_subset {basis cells : List Cell} {missing : Nat} :
    joiningCells basis missing cells ⊆ cells := by
  induction cells generalizing basis missing with
  | nil => cases missing <;> simp [joiningCells]
  | cons cell cells induction =>
      cases missing with
      | zero => simp [joiningCells]
      | succ missing =>
          rw [joiningCells]
          split
          next => exact List.Subset.trans induction (List.subset_cons_self _ _)
          next => exact List.cons_subset_cons _ induction

/-- The joining cells keep a forest a forest, and they stop early only where every
candidate is joined. -/
theorem joiningCells_extend {basis : List Cell} (loopless : Loopless basis)
    (nodup : basis.Nodup) (cells : List Cell) (missing : Nat) :
    Loopless (basis ++ joiningCells basis missing cells) ∧
      (basis ++ joiningCells basis missing cells).Nodup ∧
      ((joiningCells basis missing cells).length = missing ∨
        ∀ cell ∈ cells, Joined (basis ++ joiningCells basis missing cells)
          (.row cell.row) (.col cell.col)) := by
  induction cells generalizing basis missing with
  | nil => cases missing <;> simp [joiningCells, loopless, nodup]
  | cons cell cells induction =>
      cases missing with
      | zero => simp [joiningCells, loopless, nodup]
      | succ missing =>
          by_cases joined : isJoined basis cell = true
          · obtain ⟨forest, distinct, ends⟩ := induction loopless nodup (missing + 1)
            rw [joiningCells, if_pos joined]
            refine ⟨forest, distinct, ends.imp_right fun all => ?_⟩
            intro other member
            rcases List.mem_cons.mp member with rfl | later
            · exact (isJoined_iff.mp joined).mono (List.subset_append_left _ _)
            · exact all other later
          · have apart : ¬ Joined basis (.row cell.row) (.col cell.col) :=
              fun reached => joined (isJoined_iff.mpr reached)
            have absent : cell ∉ basis := fun member => apart (Joined.of_mem member)
            have extended : (basis ++ [cell]).Nodup := by
              simpa using nodup.concat absent
            obtain ⟨forest, distinct, ends⟩ :=
              induction (loopless.concat apart) extended missing
            rw [List.append_assoc, List.singleton_append] at forest distinct ends
            rw [joiningCells, if_neg joined]
            refine ⟨forest, distinct, ?_⟩
            rcases ends with full | all
            · exact .inl (by simp [full])
            · refine .inr fun other member => ?_
              rcases List.mem_cons.mp member with rfl | later
              · exact Joined.of_mem (by simp)
              · exact all other later

/-! ## Completion -/

theorem Cell.mem_all_iff {rows cols : Nat} {cell : Cell} :
    cell ∈ Cell.all rows cols ↔ cell.InTable rows cols := by
  obtain ⟨row, col⟩ := cell
  simp [Cell.all, Cell.InTable]

/-- A cell stands before another in row-major order. -/
def Cell.Before (left right : Cell) : Prop :=
  left.row < right.row ∨ left.row = right.row ∧ left.col < right.col

section Before

variable {left right : Cell}

theorem Cell.eq_iff : left = right ↔ left.row = right.row ∧ left.col = right.col := by
  cases left
  cases right
  rw [Cell.mk.injEq]

theorem Cell.Before.ne (before : left.Before right) : left ≠ right := by
  rintro rfl
  unfold Cell.Before at before
  omega

theorem Cell.Before.asymm (before : left.Before right) : ¬ right.Before left := by
  unfold Cell.Before at before ⊢
  omega

theorem Cell.before_of_le (rows : left.row ≤ right.row) (cols : left.col ≤ right.col)
    (different : left ≠ right) : left.Before right := by
  rw [ne_eq, Cell.eq_iff] at different
  unfold Cell.Before
  omega

end Before

theorem Cell.pairwise_all (rows cols : Nat) : (Cell.all rows cols).Pairwise Cell.Before := by
  refine List.pairwise_flatMap.mpr ⟨fun row _ => ?_, ?_⟩
  · exact List.pairwise_map.mpr (List.pairwise_lt_range.imp fun before => .inr ⟨rfl, before⟩)
  · refine List.pairwise_lt_range.imp fun before left leftMember right rightMember => ?_
    obtain ⟨_, _, rfl⟩ := List.mem_map.mp leftMember
    obtain ⟨_, _, rfl⟩ := List.mem_map.mp rightMember
    exact .inl before

/-- Where every cell of a table joins its lines, all lines are joined. -/
theorem joined_of_cells {rows cols : Nat} {cells : List Cell}
    (rowsPositive : 0 < rows) (colsPositive : 0 < cols)
    (joins : ∀ cell : Cell, cell.InTable rows cols →
      Joined cells (.row cell.row) (.col cell.col))
    (left right : Line) (leftInTable : left.InTable rows cols)
    (rightInTable : right.InTable rows cols) : Joined cells left right := by
  have toCorner : ∀ line : Line, line.InTable rows cols → Joined cells line (.row 0) := by
    intro line inTable
    cases line with
    | row index =>
        exact (joins ⟨index, 0⟩ ⟨inTable, colsPositive⟩).trans
          (joins ⟨0, 0⟩ ⟨rowsPositive, colsPositive⟩).symm
    | col index => exact (joins ⟨0, index⟩ ⟨rowsPositive, inTable⟩).symm
  exact (toCorner left leftInTable).trans (toCorner right rightInTable).symm

section Table

variable {α : Type} [Scalar α] {rows cols : Nat} {cost : Table α} {basis : List Cell}
  {below : α → α → Bool}

/-- The cells outside a basis, each with its price. -/
def pricedOutside (cost : Table α) (basis : List Cell) (rows cols : Nat) : List (α × Cell) :=
  ((Cell.all rows cols).filter fun cell => !basis.contains cell).map fun cell =>
    (cost.price cell, cell)

theorem mem_pricedOutside {entry : α × Cell} :
    entry ∈ pricedOutside cost basis rows cols ↔
      (entry.2.InTable rows cols ∧ entry.2 ∉ basis) ∧ entry.1 = cost.price entry.2 := by
  rw [pricedOutside, List.mem_map]
  constructor
  · rintro ⟨cell, member, rfl⟩
    refine ⟨?_, rfl⟩
    simpa [Cell.mem_all_iff] using member
  · rintro ⟨outside, priced⟩
    refine ⟨entry.2, ?_, Prod.ext priced.symm rfl⟩
    simpa [Cell.mem_all_iff] using outside

/-- The candidates of a table are its cells outside the basis, sorted by price. -/
theorem candidates_eq_sortBy (shaped : cost.Shaped rows cols) (basis : List Cell) :
    candidates cost basis rows cols = do
      let sorted ← Scalar.sortBy (fun left right => Scalar.precedes left.1 right.1)
        (pricedOutside cost basis rows cols)
      return sorted.map (·.2) := by
  let outside := (Cell.all rows cols).filter fun cell => !basis.contains cell
  have priced : outside.mapM (fun cell => do return (← cost.entry cell, cell)) =
      (.ok (pricedOutside cost basis rows cols) : Except Fault _) := by
    apply mapM_eq_ok
    intro cell member
    have inTable := Cell.mem_all_iff.mp (List.mem_of_mem_filter member)
    simp [shaped.entry_eq_ok inTable]
  simp only [candidates]
  rw [priced, ok_bind]

theorem candidates_eq_ok (ordered : ∀ left right : α,
      Scalar.precedes left right = .ok (below left right))
    (shaped : cost.Shaped rows cols) (basis : List Cell) :
    ∃ cells, candidates cost basis rows cols = .ok cells ∧
      ∀ cell, cell ∈ cells ↔ cell.InTable rows cols ∧ cell ∉ basis := by
  have byPrice : ∀ left right : α × Cell,
      Scalar.precedes left.1 right.1 = .ok (below left.1 right.1) :=
    fun left right => ordered left.1 right.1
  obtain ⟨sorted, result, permutation⟩ :=
    Scalar.sortBy_eq_ok byPrice (pricedOutside cost basis rows cols)
  refine ⟨sorted.map (·.2), ?_, ?_⟩
  · rw [candidates_eq_sortBy shaped, result]
    rfl
  · intro cell
    rw [(permutation.map _).mem_iff]
    simp [mem_pricedOutside]

/-- The completion of a forest is a spanning tree that holds it. -/
theorem completion_eq_ok (ordered : ∀ left right : α,
      Scalar.precedes left right = .ok (below left right))
    (shaped : cost.Shaped rows cols) (rowsPositive : 0 < rows) (colsPositive : 0 < cols)
    (inTable : ∀ cell ∈ basis, cell.InTable rows cols)
    (loopless : Loopless basis) (nodup : basis.Nodup) :
    ∃ added, completion cost basis rows cols = .ok added ∧
      SpanningTree rows cols (basis ++ added) := by
  have bounded := loopless.length_lt rowsPositive inTable nodup
  by_cases short : basis.length < rows + cols - 1
  · obtain ⟨cells, result, mem_cells⟩ := candidates_eq_ok ordered shaped basis
    let added := joiningCells basis (rows + cols - 1 - basis.length) cells
    have addedInTable : ∀ cell ∈ basis ++ added, cell.InTable rows cols := by
      intro cell member
      rcases List.mem_append.mp member with old | new
      · exact inTable cell old
      · exact ((mem_cells cell).mp (joiningCells_subset new)).1
    obtain ⟨forest, distinct, ends⟩ :=
      joiningCells_extend loopless nodup cells (rows + cols - 1 - basis.length)
    refine ⟨added, by simp [completion, short, result, added], ?_⟩
    rcases ends with full | all
    · have length : (basis ++ added).length + 1 = rows + cols := by
        rw [List.length_append, full]
        omega
      exact forest.spanningTree rowsPositive addedInTable distinct length
    · refine ⟨addedInTable, distinct, forest, joined_of_cells rowsPositive colsPositive ?_⟩
      intro cell cellInTable
      by_cases member : cell ∈ basis
      · exact Joined.of_mem (List.mem_append_left _ member)
      · exact all cell ((mem_cells cell).mpr ⟨cellInTable, member⟩)
  · refine ⟨[], by simp [completion, short], ?_⟩
    rw [List.append_nil]
    exact loopless.spanningTree rowsPositive inTable nodup (by omega)

/-- Cells without a loop are accepted as they are and extend to a spanning tree. -/
theorem spanningBasis_eq_ok (ordered : ∀ left right : α,
      Scalar.precedes left right = .ok (below left right))
    (shaped : cost.Shaped rows cols) (rowsPositive : 0 < rows) (colsPositive : 0 < cols)
    {cells : List Cell} (inTable : ∀ cell ∈ cells, cell.InTable rows cols)
    (loopless : Loopless cells) (nodup : cells.Nodup) :
    ∃ added, acyclic (Cell.sort cells) = .ok (Cell.sort cells) ∧
      completion cost (Cell.sort cells) rows cols = .ok added ∧
      spanningBasis cost cells rows cols = .ok (Cell.sort cells ++ added) ∧
      SpanningTree rows cols (Cell.sort cells ++ added) := by
  have sorted : (Cell.sort cells).Perm cells := List.mergeSort_perm _ _
  have forest : Loopless (Cell.sort cells) := loopless.mono sorted.subset
  have distinct : (Cell.sort cells).Nodup := sorted.nodup_iff.mpr nodup
  have given : acyclic (Cell.sort cells) = .ok (Cell.sort cells) :=
    acyclic_eq_ok_iff.mpr ⟨rfl, forest, distinct⟩
  obtain ⟨added, completed, tree⟩ :=
    completion_eq_ok ordered shaped rowsPositive colsPositive
      (fun cell member => inTable cell (sorted.mem_iff.mp member)) forest distinct
  refine ⟨added, given, completed, ?_, tree⟩
  rw [spanningBasis, given, ok_bind, completed]
  rfl

end Table

end OptimalPlans.Transport
