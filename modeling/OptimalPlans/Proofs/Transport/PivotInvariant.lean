import OptimalPlans.Proofs.Transport.LoopBalance
import OptimalPlans.Proofs.Transport.SpanningBasis
import OptimalPlans.Proofs.Transport.TableTotal
import OptimalPlans.Transport.Refinement

/-!
# Pivots keep a basic plan

A proper plan has a spanning tree as its basis, exactly the basic cells hold an amount,
and no amount is negative.  Every cell outside the basis can enter a proper plan; the
plan it leads to is proper again and ships the same from every row and to every column.
-/

namespace OptimalPlans.Transport

/-- A plan whose basis is a spanning tree and whose amounts are those of the basis. -/
structure BasicPlan.Proper (rows cols : Nat) (plan : BasicPlan Int) : Prop where
  tree : SpanningTree rows cols plan.basis
  nodup : plan.amounts.cells.Nodup
  mem_iff : ∀ cell, cell ∈ plan.amounts.cells ↔ cell ∈ plan.basis
  nonneg : ∀ cell, 0 ≤ plan.amounts.getOrZero cell

/-- The total of a loop over a line is its signed number of cells there. -/
theorem lineTotal_loopWeight {rows cols : Nat} {loop : List LoopCell}
    (inTable : ∀ step ∈ loop, step.cell.InTable rows cols) (line : Line) :
    lineTotal rows cols (loopWeight loop) line =
      signedSum loop fun cell => if line.touches cell then 1 else 0 := by
  induction loop with
  | nil => cases line <;> simp [lineTotal, rowTotal, colTotal, loopWeight_nil]
  | cons step rest induction =>
      have parts : loopWeight (step :: rest) = fun cell =>
          (if step.cell = cell then step.sign.factor else 0) + loopWeight rest cell :=
        funext (loopWeight_cons step rest)
      rw [parts, lineTotal_add, lineTotal_single (inTable step (by simp)),
        induction fun other member => inTable other (by simp [member]), signedSum_cons]
      simp only [mul_ite, mul_one, mul_zero]

/-- The total of a loop over the table, weighted by cell, is its signed sum. -/
theorem tableTotal_loopWeight {rows cols : Nat} {loop : List LoopCell}
    (inTable : ∀ step ∈ loop, step.cell.InTable rows cols) (value : Cell → Int) :
    tableTotal rows cols (fun cell => value cell * loopWeight loop cell) =
      signedSum loop value := by
  induction loop with
  | nil => simp [tableTotal, rowTotal, loopWeight_nil]
  | cons step rest induction =>
      have parts : (fun cell => value cell * loopWeight (step :: rest) cell) = fun cell =>
          (if step.cell = cell then step.sign.factor * value cell else 0) +
            value cell * loopWeight rest cell := by
        funext cell
        rw [loopWeight_cons]
        split <;> ring
      rw [parts, tableTotal_add, tableTotal_single (inTable step (by simp))
        fun cell => step.sign.factor * value cell,
        induction fun other member => inTable other (by simp [member]), signedSum_cons]

namespace ClosesLoop

variable {rows cols : Nat} {basis cells : List Cell} {entering leaving : Cell}

theorem inTable (closes : ClosesLoop basis entering cells)
    (basisInTable : ∀ cell ∈ basis, cell.InTable rows cols)
    (enteringInTable : entering.InTable rows cols) :
    ∀ step ∈ loopAlong entering cells, step.cell.InTable rows cols := by
  intro step member
  rcases List.mem_cons.mp member with rfl | inner
  · exact enteringInTable
  · exact basisInTable _ (closes.within (cell_mem_of_mem_alternate inner))

/-- A loop takes from every line what it gives to it. -/
theorem lineTotal_eq_zero (closes : ClosesLoop basis entering cells)
    (basisInTable : ∀ cell ∈ basis, cell.InTable rows cols)
    (enteringInTable : entering.InTable rows cols) (line : Line) :
    lineTotal rows cols (loopWeight (loopAlong entering cells)) line = 0 := by
  rw [lineTotal_loopWeight (closes.inTable basisInTable enteringInTable)]
  exact closes.signedSum_touches line

/-- Without one of the cells of its walk, the lines of the entering cell come apart. -/
theorem apart_of_leaving (closes : ClosesLoop basis entering cells)
    (loopless : Loopless basis) (leaves : leaving ∈ cells) :
    ¬ Joined (basis.filter (· ≠ leaving)) (.row entering.row) (.col entering.col) := by
  intro joined
  obtain ⟨before, after, rfl⟩ := List.append_of_mem leaves
  have distinct := closes.nodup
  rw [List.nodup_middle, List.nodup_cons, List.mem_append, not_or] at distinct
  have keep : ∀ cell, cell ∈ before ++ leaving :: after → cell ≠ leaving →
      cell ∈ basis.filter (· ≠ leaving) := fun cell member different =>
    List.mem_filter.mpr ⟨closes.within member, by simpa using different⟩
  have apart : ¬ Joined (basis.filter (· ≠ leaving)) (.row leaving.row)
      (.col leaving.col) :=
    loopless.apart (closes.within leaves) (List.filter_subset_self _) (by simp)
  apply apart
  apply closes.leads.joined_of_bypass _ _ joined
  · intro cell member
    exact keep cell (by simp [member]) fun same => distinct.1.1 (same ▸ member)
  · intro cell member
    exact keep cell (by simp [member]) fun same => distinct.1.2 (same ▸ member)

end ClosesLoop

/-- Leaving a cell out is erasing it where no cell is repeated. -/
theorem filter_ne_eq_erase {cells : List Cell} (nodup : cells.Nodup) (leaving : Cell) :
    cells.filter (· ≠ leaving) = cells.erase leaving := by
  rw [nodup.erase_eq_filter]
  apply List.filter_congr
  intro cell _
  by_cases same : cell = leaving <;> simp [same]

/-- Exchanging a cell of the walk for the entering cell leads to another spanning
tree. -/
theorem SpanningTree.exchange {rows cols : Nat} {basis cells : List Cell}
    {entering leaving : Cell} (tree : SpanningTree rows cols basis)
    (positive : 0 < rows) (inTable : entering.InTable rows cols)
    (absent : entering ∉ basis) (closes : ClosesLoop basis entering cells)
    (leaves : leaving ∈ cells) :
    SpanningTree rows cols (basis.filter (· ≠ leaving) ++ [entering]) := by
  have leavesBasis : leaving ∈ basis := closes.within leaves
  have keptInTable : ∀ cell ∈ basis.filter (· ≠ leaving) ++ [entering],
      cell.InTable rows cols := by
    intro cell member
    rcases List.mem_append.mp member with old | new
    · exact tree.inTable cell (List.mem_of_mem_filter old)
    · obtain rfl := List.mem_singleton.mp new
      exact inTable
  have distinct : (basis.filter (· ≠ leaving) ++ [entering]).Nodup := by
    have enteringAbsent : entering ∉ basis.filter (· ≠ leaving) :=
      fun member => absent (List.mem_of_mem_filter member)
    simpa using (tree.nodup.filter _).concat enteringAbsent
  have forest : Loopless (basis.filter (· ≠ leaving) ++ [entering]) :=
    (tree.loopless.mono (List.filter_subset_self _)).concat
      (closes.apart_of_leaving tree.loopless leaves)
  have erased : (basis.filter (· ≠ leaving)).length + 1 = basis.length := by
    rw [filter_ne_eq_erase tree.nodup, List.length_erase_of_mem leavesBasis]
    have some : 0 < basis.length := List.length_pos_of_mem leavesBasis
    omega
  have counted := tree.length_add_one positive
  apply forest.spanningTree positive keptInTable distinct
  rw [List.length_append, List.length_singleton]
  omega

/-! ## Pivots -/

/-- A pivot that shifts the smallest amount its loop loses, and the plan that follows. -/
structure BasicPlan.Shifts (plan : BasicPlan Int) (pivot : Pivot Int) (next : BasicPlan Int) :
    Prop where
  closes : ∃ cells, ClosesLoop plan.basis pivot.entering cells ∧
    pivot.loop = loopAlong pivot.entering cells
  least : IsLeast {amount | ∃ step ∈ pivot.loop, step.sign = .minus ∧
    plan.amounts.getOrZero step.cell = amount} pivot.theta
  amount : ∀ cell, next.amounts.getOrZero cell =
    plan.amounts.getOrZero cell + pivot.theta * loopWeight pivot.loop cell

namespace BasicPlan.Proper

variable {rows cols : Nat} {plan : BasicPlan Int} {entering : Cell}

theorem getOrZero_of_absent (proper : plan.Proper rows cols) {cell : Cell}
    (absent : cell ∉ plan.basis) : plan.amounts.getOrZero cell = 0 :=
  Amounts.getOrZero_of_absent fun member => absent ((proper.mem_iff cell).mp member)

/-- A cell outside the basis enters through a walk of basic cells, and the amount to
shift is the smallest one that the walk loses. -/
theorem pivotFor_eq_ok (proper : plan.Proper rows cols)
    (inTable : entering.InTable rows cols) :
    ∃ cells leaving, ClosesLoop plan.basis entering cells ∧
      pivotFor plan entering =
        .ok ⟨entering, loopAlong entering cells, plan.amounts.getOrZero leaving,
          some leaving⟩ ∧
      ⟨leaving, .minus⟩ ∈ loopAlong entering cells ∧
      ∀ step ∈ loopAlong entering cells, step.sign = .minus →
        plan.amounts.getOrZero leaving ≤ plan.amounts.getOrZero step.cell := by
  have joined : Joined plan.basis (.row entering.row) (.col entering.col) :=
    proper.tree.joined _ _ inTable.1 inTable.2
  obtain ⟨cells, found, closes⟩ := loopThrough_eq_ok joined
  obtain ⟨leaving, chosen, leaves, least⟩ :=
    bottleneck_eq_ok plan.amounts closes.exists_minus
  exact ⟨cells, leaving, closes, by simp [pivotFor, found, chosen], leaves, least⟩

/-- Shifting around a loop changes the amounts by its weights, and exchanges the leaving
cell for the entering one. -/
theorem shiftAround_eq_ok (proper : plan.Proper rows cols) (absent : entering ∉ plan.basis)
    {cells : List Cell} (closes : ClosesLoop plan.basis entering cells) {leaving : Cell}
    (leaves : ⟨leaving, .minus⟩ ∈ loopAlong entering cells) :
    ∃ next, plan.shiftAround (loopAlong entering cells) (plan.amounts.getOrZero leaving)
        (some leaving) = .ok next ∧
      next.basis = plan.basis.filter (· ≠ leaving) ++ [entering] ∧
      next.amounts.cells.Nodup ∧
      (∀ cell, cell ∈ next.amounts.cells ↔ cell ∈ next.basis) ∧
      ∀ cell, next.amounts.getOrZero cell = plan.amounts.getOrZero cell +
        plan.amounts.getOrZero leaving * loopWeight (loopAlong entering cells) cell := by
  have leavesBasis : leaving ∈ plan.basis :=
    closes.within (ClosesLoop.mem_of_minus leaves rfl)
  have different : entering ≠ leaving := fun same => absent (same ▸ leavesBasis)
  have held : ∀ step ∈ loopAlong entering cells, step.sign = .minus →
      step.cell ∈ plan.amounts.cells := fun step member loses =>
    (proper.mem_iff _).mpr (closes.within (ClosesLoop.mem_of_minus member loses))
  obtain ⟨shifted, result, nodup, member, amount⟩ :=
    foldlM_shift_eq_ok (plan.amounts.getOrZero leaving) proper.nodup held
  have exchanged : (plan.basis ++ [entering]).filter (· ≠ leaving) =
      plan.basis.filter (· ≠ leaving) ++ [entering] := by
    simp [List.filter_append, different]
  refine ⟨⟨plan.basis.filter (· ≠ leaving) ++ [entering], shifted.erase leaving⟩,
    ?_, rfl, Amounts.nodup_filter _ nodup, ?_, ?_⟩
  · rw [BasicPlan.shiftAround, result, ok_bind, ← exchanged]
    simp [loopAlong, absent]
  · intro cell
    have walked : cell ∈ (loopAlong entering cells).map (·.cell) ↔
        cell = entering ∨ cell ∈ cells := by
      rw [loopAlong, List.map_cons, map_cell_alternate, List.mem_cons]
    have basic : cell ∈ cells → cell ∈ plan.basis := fun walk => closes.within walk
    have stays : cell = entering → cell ≠ leaving := fun same => same ▸ different
    rw [Amounts.mem_cells_erase, member, walked, proper.mem_iff, ← exchanged]
    simp only [List.mem_filter, List.mem_append, List.mem_singleton, decide_eq_true_eq]
    tauto
  · intro cell
    rw [Amounts.getOrZero_erase nodup]
    split
    next same =>
        subst same
        rw [loopWeight_of_mem (closes.nodup_loopAlong absent) leaves, Sign.factor]
        ring
    next => exact amount cell

/-- Where the loop loses no more than is there, no amount becomes negative. -/
theorem shifted_nonneg (proper : plan.Proper rows cols) (absent : entering ∉ plan.basis)
    {cells : List Cell} (closes : ClosesLoop plan.basis entering cells) {theta : Int}
    (nonneg : 0 ≤ theta)
    (least : ∀ step ∈ loopAlong entering cells, step.sign = .minus →
      theta ≤ plan.amounts.getOrZero step.cell) (cell : Cell) :
    0 ≤ plan.amounts.getOrZero cell +
      theta * loopWeight (loopAlong entering cells) cell := by
  have held : 0 ≤ plan.amounts.getOrZero cell := proper.nonneg cell
  by_cases walked : cell ∈ (loopAlong entering cells).map (·.cell)
  · obtain ⟨step, member, rfl⟩ := List.mem_map.mp walked
    rw [loopWeight_of_mem (closes.nodup_loopAlong absent) member]
    cases sign : step.sign with
    | plus =>
        rw [Sign.factor]
        omega
    | minus =>
        have bound : theta ≤ plan.amounts.getOrZero step.cell := least step member sign
        rw [Sign.factor]
        omega
  · rw [loopWeight_of_absent walked, mul_zero, add_zero]
    exact held

/-- Every cell outside the basis can enter, and the plan that follows is proper. -/
theorem pivot_eq_ok (proper : plan.Proper rows cols) (positive : 0 < rows)
    (inTable : entering.InTable rows cols) (absent : entering ∉ plan.basis) :
    ∃ pivot leaving next, pivotFor plan entering = .ok pivot ∧
      pivot.leaving = some leaving ∧ ⟨leaving, .minus⟩ ∈ pivot.loop ∧
      plan.pivot pivot = .ok next ∧ next.Proper rows cols ∧ pivot.entering = entering ∧
      plan.Shifts pivot next := by
  obtain ⟨cells, leaving, closes, found, leaves, least⟩ := proper.pivotFor_eq_ok inTable
  obtain ⟨next, result, basis, nodup, mem_iff, amount⟩ :=
    proper.shiftAround_eq_ok absent closes leaves
  have walked : leaving ∈ cells := ClosesLoop.mem_of_minus leaves rfl
  refine ⟨_, leaving, next, found, rfl, leaves, result, ?_, rfl, ⟨cells, closes, rfl⟩, ?_,
    amount⟩
  · have tree : SpanningTree rows cols next.basis := by
      rw [basis]
      exact proper.tree.exchange positive inTable absent closes walked
    refine ⟨tree, nodup, mem_iff, fun cell => ?_⟩
    rw [amount]
    exact proper.shifted_nonneg absent closes (proper.nonneg leaving) least cell
  · refine ⟨⟨⟨leaving, .minus⟩, leaves, rfl, rfl⟩, ?_⟩
    rintro _ ⟨step, member, loses, rfl⟩
    exact least step member loses

end BasicPlan.Proper

namespace BasicPlan.Shifts

variable {rows cols : Nat} {plan next : BasicPlan Int} {pivot : Pivot Int}

theorem loop_inTable (shifts : plan.Shifts pivot next) (proper : plan.Proper rows cols)
    (inTable : pivot.entering.InTable rows cols) :
    ∀ step ∈ pivot.loop, step.cell.InTable rows cols := by
  obtain ⟨cells, closes, loop⟩ := shifts.closes
  rw [loop]
  exact closes.inTable proper.tree.inTable inTable

/-- A shift keeps what is shipped over every line. -/
theorem lineTotal_eq (shifts : plan.Shifts pivot next) (proper : plan.Proper rows cols)
    (inTable : pivot.entering.InTable rows cols) (line : Line) :
    lineTotal rows cols next.amounts.getOrZero line =
      lineTotal rows cols plan.amounts.getOrZero line := by
  obtain ⟨cells, closes, loop⟩ := shifts.closes
  have shifted : next.amounts.getOrZero = fun cell => plan.amounts.getOrZero cell +
      pivot.theta * loopWeight pivot.loop cell := funext shifts.amount
  rw [shifted, lineTotal_add, lineTotal_mul, loop,
    closes.lineTotal_eq_zero proper.tree.inTable inTable, mul_zero, add_zero]

theorem theta_nonneg (shifts : plan.Shifts pivot next) (proper : plan.Proper rows cols) :
    0 ≤ pivot.theta := by
  obtain ⟨step, _, _, held⟩ := shifts.least.1
  exact held ▸ proper.nonneg step.cell

end BasicPlan.Shifts

end OptimalPlans.Transport
