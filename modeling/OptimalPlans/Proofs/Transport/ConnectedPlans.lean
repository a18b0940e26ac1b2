import OptimalPlans.Proofs.Transport.RefinementFaults

/-!
# Refinement of any numbers

Over doubles a pivot may shift an amount that is no number, and a loop may have no cell to
leave by.  What survives every pivot is that the basis joins all lines of the table and
that every basic cell holds an amount.  That is enough for the next loop to be found and
for no look-up to fail, so a refinement only fails on an integer that is too large to be
rounded, or because its tolerance has failed.
-/

namespace OptimalPlans.Transport

variable {mayFail : Fault → Prop} {rows cols : Nat}

/-- Allocations of cells of a table. -/
def WithinTable (rows cols : Nat) (allocations : List (Allocation Number)) : Prop :=
  ∀ allocation ∈ allocations, allocation.cell.InTable rows cols

@[simp] theorem WithinTable.nil (rows cols : Nat) : WithinTable rows cols [] := by
  simp [WithinTable]

/-- A plan whose basis joins all lines of a table, and which holds an amount in every basic
cell and none outside the table. -/
structure BasicPlan.Connected (rows cols : Nat) (plan : BasicPlan Number) : Prop where
  inTable : ∀ cell ∈ plan.basis, cell.InTable rows cols
  joined : ∀ left right : Line, left.InTable rows cols → right.InTable rows cols →
    Joined plan.basis left right
  held : plan.basis ⊆ plan.amounts.cells
  listed : ∀ cell ∈ plan.amounts.cells, cell.InTable rows cols

theorem BasicPlan.Proper.connected {plan : BasicPlan Int} (proper : plan.Proper rows cols) :
    (plan.map Number.integer).Connected rows cols := by
  have listed : ∀ cell, cell ∈ (plan.map Number.integer).amounts.cells ↔ cell ∈ plan.basis := by
    intro cell
    rw [← proper.mem_iff, BasicPlan.map, Amounts.cells_mapAmounts]
  exact ⟨proper.tree.inTable, proper.tree.joined, fun cell member => (listed cell).mpr member,
    fun cell member => proper.tree.inTable cell ((listed cell).mp member)⟩

/-! ## Amounts -/

namespace Amounts

variable {amounts : Amounts Number}

theorem keepPositive_number (amounts : Amounts Number) :
    amounts.keepPositive =
      .ok (amounts.filter fun entry => (Number.integer 0).less entry.2) :=
  Scalar.filterBy_eq_ok fun _ _ => rfl

/-- The positive amounts lie in the table where all amounts do. -/
theorem yields_positive (listed : ∀ cell ∈ amounts.cells, cell.InTable rows cols) :
    Yields mayFail (WithinTable rows cols) amounts.positive := by
  rw [positive, keepPositive_number, ok_bind]
  intro allocation member
  obtain ⟨entry, kept, rfl⟩ := List.mem_map.mp member
  have held : entry ∈ amounts :=
    (List.mergeSort_perm amounts _).mem_iff.mp (List.mem_of_mem_filter kept)
  exact listed _ (List.mem_map_of_mem held)

/-- Merged allocations of a table list each of their cells once. -/
theorem yields_merge (overflow : mayFail .integerTooLarge)
    {allocations : List (Allocation Number)} (within : WithinTable rows cols allocations) :
    Yields mayFail (fun merged => merged.cells.Nodup ∧
      ∀ cell ∈ merged.cells, cell.InTable rows cols) (merge allocations) := by
  let known : Amounts Number → Prop := fun amounts =>
    amounts.cells.Nodup ∧ ∀ cell ∈ amounts.cells, cell.InTable rows cols
  have entered : Yields mayFail known (allocations.foldlM (fun amounts allocation => do
      let amount ← Scalar.add (amounts.getOrZero allocation.cell) allocation.amount
      return amounts.put allocation.cell amount) []) := by
    refine Yields.foldlM ⟨List.nodup_nil, by simp [cells]⟩ ?_
    rintro allocation member amounts ⟨nodup, listed⟩
    refine (Number.yields_combine overflow _ _ _ _).bind fun amount _ => ?_
    refine ⟨nodup_put amount nodup, fun cell entered => ?_⟩
    rcases (mem_cells_put amount).mp entered with rfl | old
    · exact within allocation member
    · exact listed cell old
  refine entered.bind fun amounts holds => ?_
  rw [keepPositive_number]
  refine ⟨nodup_filter _ holds.1, fun cell member => holds.2 cell ?_⟩
  obtain ⟨entry, kept, rfl⟩ := List.mem_map.mp member
  exact List.mem_map_of_mem (List.mem_of_mem_filter kept)

theorem mem_cells_foldl_ensure {α : Type} [Scalar α] {amounts : Amounts α}
    (added : List Cell) (cell : Cell) :
    cell ∈ (added.foldl ensure amounts).cells ↔ cell ∈ added ∨ cell ∈ amounts.cells := by
  have ensured : ∀ (amounts : Amounts α) (other : Cell),
      cell ∈ (amounts.ensure other).cells ↔ cell = other ∨ cell ∈ amounts.cells := by
    intro amounts other
    unfold ensure
    split
    next held found =>
        have member : other ∈ amounts.cells := mem_cells_iff.mpr ⟨held, found⟩
        exact ⟨.inr, fun either => either.elim (· ▸ member) id⟩
    next => exact mem_cells_put _
  induction added generalizing amounts with
  | nil => simp
  | cons other added induction =>
      rw [List.foldl_cons, List.mem_cons]
      refine induction.trans ?_
      rw [ensured]
      tauto

end Amounts

/-! ## The start -/

theorem yields_acyclic (cyclic : mayFail .cyclicPlan) (cells : List Cell) :
    Yields mayFail (fun basis => basis = cells ∧ Loopless cells ∧ cells.Nodup)
      (acyclic cells) := by
  have only : Yields mayFail (fun _ => True) (acyclic cells) := by
    refine Yields.foldlM trivial fun cell _ basis _ => ?_
    split
    · exact cyclic
    · trivial
  cases collected : acyclic cells with
  | error fault => exact only.mayFail_of_eq_error collected
  | ok basis => exact acyclic_eq_ok_iff.mp collected

/-- Allocations of the table start a connected plan, unless their cells form a loop. -/
theorem yields_startingPlan (overflow : mayFail .integerTooLarge) (cyclic : mayFail .cyclicPlan)
    {problem : Problem Number} (shaped : problem.cost.Shaped problem.rows problem.cols)
    (rowsPositive : 0 < problem.rows) (colsPositive : 0 < problem.cols)
    {allocations : List (Allocation Number)}
    (within : WithinTable problem.rows problem.cols allocations) :
    Yields mayFail (BasicPlan.Connected problem.rows problem.cols)
      (startingPlan problem allocations).result := by
  rw [result_startingPlan]
  refine (Amounts.yields_merge overflow within).bind ?_
  rintro amounts ⟨nodup, listed⟩
  have sorted : (Cell.sort amounts.cells).Perm amounts.cells := List.mergeSort_perm _ _
  refine (yields_acyclic cyclic (Cell.sort amounts.cells)).bind ?_
  rintro _ ⟨rfl, loopless, distinct⟩
  obtain ⟨added, completed, tree⟩ := completion_eq_ok Scalar.precedes_number shaped rowsPositive
    colsPositive (fun cell member => listed cell (sorted.mem_iff.mp member)) loopless distinct
  rw [completed, ok_bind]
  have held : ∀ cell, cell ∈ (added.foldl Amounts.ensure amounts).cells ↔
      cell ∈ Cell.sort amounts.cells ++ added := by
    intro cell
    rw [Amounts.mem_cells_foldl_ensure, List.mem_append, sorted.mem_iff, or_comm]
  exact ⟨tree.inTable, tree.joined, fun cell member => (held cell).mpr member,
    fun cell member => tree.inTable cell ((held cell).mp member)⟩

/-! ## Pivots -/

/-- A losing cell is missing nowhere, so a shift around a loop enters its cells and keeps
the others. -/
theorem yields_foldlM_shift (overflow : mayFail .integerTooLarge) (theta : Number)
    {loop : List LoopCell} {amounts : Amounts Number}
    (held : ∀ step ∈ loop, step.sign = .minus → step.cell ∈ amounts.cells) :
    Yields mayFail (fun shifted => ∀ cell, cell ∈ shifted.cells ↔
      cell ∈ loop.map (·.cell) ∨ cell ∈ amounts.cells) (loop.foldlM (shift theta) amounts) := by
  induction loop generalizing amounts with
  | nil => exact fun cell => by simp
  | cons step loop induction =>
      have first : Yields mayFail (fun next => ∀ cell, cell ∈ next.cells ↔
          cell = step.cell ∨ cell ∈ amounts.cells) (shift theta amounts step) := by
        unfold shift
        cases sign : step.sign with
        | plus =>
            refine (Number.yields_combine overflow _ _ _ theta).bind fun total _ => ?_
            exact fun cell => Amounts.mem_cells_put total
        | minus =>
            obtain ⟨amount, found⟩ :=
              Amounts.mem_cells_iff.mp (held step (by simp) sign)
            simp only [found]
            refine (Number.yields_combine overflow _ _ amount theta).bind fun rest _ => ?_
            exact fun cell => Amounts.mem_cells_put rest
      rw [List.foldlM_cons]
      refine first.bind fun next entered => ?_
      refine (induction fun other member loses => ?_).mono fun shifted all cell => ?_
      · exact (entered _).mpr (.inr (held other (by simp [member]) loses))
      · rw [all, entered, List.map_cons, List.mem_cons]
        tauto

/-- Without a cell of the walk, the entering cell still joins all lines. -/
theorem ClosesLoop.joined_exchange {basis cells : List Cell} {entering leaving : Cell}
    (closes : ClosesLoop basis entering cells) (leaves : leaving ∈ cells)
    (different : entering ≠ leaving) {left right : Line} (joined : Joined basis left right) :
    Joined ((basis ++ [entering]).filter (· ≠ leaving)) left right := by
  let others := (basis ++ [entering]).filter (· ≠ leaving)
  have kept : ∀ cell ∈ basis, cell ≠ leaving → cell ∈ others := fun cell member unequal =>
    List.mem_filter.mpr ⟨by simp [member], by simpa using unequal⟩
  have entered : Joined others (.row entering.row) (.col entering.col) :=
    Joined.of_mem (List.mem_filter.mpr ⟨by simp, by simpa using different⟩)
  have bypassed : Joined others (.row leaving.row) (.col leaving.col) := by
    obtain ⟨before, after, rfl⟩ := List.append_of_mem leaves
    have distinct := closes.nodup
    rw [List.nodup_middle, List.nodup_cons, List.mem_append, not_or] at distinct
    refine closes.leads.joined_of_bypass (fun cell member => ?_) (fun cell member => ?_) entered
    · exact kept cell (closes.within (by simp [member])) fun same => distinct.1.1 (same ▸ member)
    · exact kept cell (closes.within (by simp [member])) fun same => distinct.1.2 (same ▸ member)
  have each : ∀ cell ∈ basis, Joined others (.row cell.row) (.col cell.col) := by
    intro cell member
    by_cases same : cell = leaving
    · exact same ▸ bypassed
    · exact Joined.of_mem (kept cell member same)
  exact joined.carries (fun cell member => ⟨fun reached => reached.trans (each cell member),
    fun reached => reached.trans (each cell member).symm⟩) (Joined.refl left)

/-- Only a losing cell may leave. -/
theorem yields_bottleneck (amounts : Amounts Number) (loop : List LoopCell) :
    Yields mayFail (fun best => ∀ cell, best.2 = some cell → ⟨cell, .minus⟩ ∈ loop)
      (bottleneck amounts loop) := by
  let known : Option (Number × Cell) → Prop := fun best =>
    ∀ held, best = some held → ⟨held.2, .minus⟩ ∈ loop
  have begins : known none := by simp [known]
  unfold bottleneck
  refine Yields.bind (Yields.foldlM begins ?_) fun best holds => ?_
  · rintro ⟨cell, sign⟩ member best holds
    cases sign with
    | plus => exact holds
    | minus =>
        have taken : known (some (amounts.getOrZero cell, cell)) := by
          intro held same
          exact Option.some.inj same ▸ member
        cases best with
        | none =>
            cases bounded : (amounts.getOrZero cell).isBounded <;>
              simp only [Scalar.bounded, bounded, ok_bind] <;> assumption
        | some held =>
            cases less : (amounts.getOrZero cell).less held.1 <;>
              simp only [Scalar.less, less, ok_bind] <;> assumption
  · cases best with
    | none => exact fun cell none => nomatch none
    | some held => exact fun cell same => Option.some.inj same ▸ holds held rfl

namespace BasicPlan.Connected

variable {plan : BasicPlan Number}

/-- Every cell outside the basis can enter a connected plan, and leads to another one. -/
theorem yields_pivot (overflow : mayFail .integerTooLarge) (connected : plan.Connected rows cols)
    {entering : Cell} (inTable : entering.InTable rows cols) (absent : entering ∉ plan.basis) :
    Yields mayFail (fun pivot => Yields mayFail (Connected rows cols) (plan.pivot pivot))
      (pivotFor plan entering) := by
  obtain ⟨cells, found, closes⟩ :=
    loopThrough_eq_ok (connected.joined _ _ inTable.1 inTable.2)
  rw [pivotFor, found, ok_bind]
  refine (yields_bottleneck plan.amounts (loopAlong entering cells)).bind ?_
  rintro ⟨theta, leaving⟩ loses
  have heldLosing : ∀ step ∈ loopAlong entering cells, step.sign = .minus →
      step.cell ∈ plan.amounts.cells := fun step member sign =>
    connected.held (closes.within (ClosesLoop.mem_of_minus member sign))
  refine Yields.ok_iff.mpr ((yields_foldlM_shift overflow theta heldLosing).bind
    fun amounts entered => ?_)
  have walked : ∀ cell, cell ∈ amounts.cells ↔
      cell = entering ∨ cell ∈ cells ∨ cell ∈ plan.amounts.cells := by
    intro cell
    rw [entered, loopAlong, List.map_cons, map_cell_alternate, List.mem_cons, or_assoc]
  have extended : ∀ cell ∈ plan.basis ++ [entering], cell ∈ amounts.cells := by
    intro cell member
    rcases List.mem_append.mp member with old | new
    · exact (walked cell).mpr (.inr (.inr (connected.held old)))
    · exact (walked cell).mpr (.inl (List.mem_singleton.mp new))
  have basisInTable : ∀ cell ∈ plan.basis ++ [entering], cell.InTable rows cols := by
    intro cell member
    rcases List.mem_append.mp member with old | new
    · exact connected.inTable cell old
    · exact List.mem_singleton.mp new ▸ inTable
  have listed : ∀ cell ∈ amounts.cells, cell.InTable rows cols := by
    intro cell member
    rcases (walked cell).mp member with rfl | walk | old
    · exact inTable
    · exact connected.inTable cell (closes.within walk)
    · exact connected.listed cell old
  simp only [loopAlong, List.contains_eq_mem, absent, decide_false, Bool.false_eq_true, if_false]
  cases leaving with
  | none =>
      exact ⟨basisInTable, fun left right leftInTable rightInTable =>
        (connected.joined left right leftInTable rightInTable).mono
          (List.subset_append_left _ _), extended, listed⟩
  | some leaving =>
      have leaves : leaving ∈ cells := ClosesLoop.mem_of_minus (loses leaving rfl) rfl
      have different : entering ≠ leaving := fun same => absent (same ▸ closes.within leaves)
      refine ⟨fun cell member => basisInTable cell (List.mem_of_mem_filter member),
        fun left right leftInTable rightInTable => closes.joined_exchange leaves different
          (connected.joined left right leftInTable rightInTable), fun cell member => ?_,
        fun cell member => listed cell (Amounts.mem_cells_erase.mp member).1⟩
      obtain ⟨kept, stays⟩ := List.mem_filter.mp member
      exact Amounts.mem_cells_erase.mpr ⟨extended cell kept, by simpa using stays⟩

/-- A refinement of a connected plan fails on an integer that is too large to be rounded, or
because it has no tolerance. -/
theorem yields_refineFrom (overflow : mayFail .integerTooLarge) {problem : Problem Number}
    (shaped : problem.cost.Shaped problem.rows problem.cols) (positive : 0 < problem.rows)
    (limit : Int) {tolerance : Except Fault Number}
    (tolerated : Yields mayFail (fun _ => True) tolerance) (budget step : Nat)
    {plan : BasicPlan Number} (connected : plan.Connected problem.rows problem.cols) :
    Yields mayFail (fun _ => True)
      (refineFrom problem limit tolerance budget step plan).result := by
  induction budget generalizing step plan with
  | zero =>
      rw [result_refineFrom_zero]
      refine (Amounts.yields_positive connected.listed).bind fun final within => ?_
      exact (yields_totalCost overflow shaped within).bind fun _ _ => trivial
  | succ budget induction =>
      rw [result_refineFrom_succ]
      refine (Potentials.yields_ofBasis overflow shaped positive connected.inTable).bind
        fun potentials sized => ?_
      refine (potentials.yields_reducedCosts overflow shaped sized).bind
        fun reduced reducedShaped => ?_
      refine tolerated.bind fun tolerance _ => ?_
      refine (yields_enteringCell reducedShaped plan.basis tolerance).bind
        fun entering entered => ?_
      refine (Amounts.yields_positive connected.listed).bind fun current within => ?_
      refine (yields_totalCost overflow shaped within).bind fun total _ => ?_
      cases entering with
      | none =>
          exact (yields_alternatives problem reducedShaped plan.basis tolerance).bind
            fun _ _ => trivial
      | some cell =>
          obtain ⟨cellInTable, absent⟩ := entered cell rfl
          refine (connected.yields_pivot overflow cellInTable absent).bind fun pivot next => ?_
          refine (reducedShaped.yields_entry cellInTable).bind fun _ _ => ?_
          refine next.bind fun nextPlan nextConnected => ?_
          exact (induction (step + 1) nextConnected).bind fun _ _ => trivial

end BasicPlan.Connected

end OptimalPlans.Transport
