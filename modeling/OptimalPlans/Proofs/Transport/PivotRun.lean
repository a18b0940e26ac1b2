import OptimalPlans.Proofs.Transport.PivotInvariant
import OptimalPlans.Proofs.Transport.PlanEmbedding

/-!
# Runs of pivots

Allocations without a loop start a proper plan, whatever the costs are.  Every plan that
pivots lead to from there is proper as well, and the next pivot finds its loop, its
leaving cell and its amounts, whichever cell enters.
-/

namespace OptimalPlans.Transport

section Start

variable {α : Type} [Scalar α] {embed : Int → α} {below : α → α → Bool}
  {problem : Problem α} {allocations : List (Allocation Int)}

theorem result_startingPlan (allocations : List (Allocation α)) :
    (startingPlan problem allocations).result = do
      let amounts ← Amounts.merge allocations
      let given ← acyclic (Cell.sort amounts.cells)
      let added ← completion problem.cost given problem.rows problem.cols
      return ⟨given ++ added, added.foldl Amounts.ensure amounts⟩ := by
  simp [startingPlan]

/-- Allocations without a loop start a proper plan, which ships the merged amounts. -/
theorem startingPlan_eq_ok (embedding : Scalar.Embedding embed)
    (ordered : ∀ left right : α, Scalar.precedes left right = .ok (below left right))
    (shaped : problem.cost.Shaped problem.rows problem.cols)
    (rowsPositive : 0 < problem.rows) (colsPositive : 0 < problem.cols)
    (inTable : ∀ allocation ∈ allocations,
      allocation.cell.InTable problem.rows problem.cols)
    (loopless : Loopless (Amounts.merged allocations).cells) :
    ∃ start : BasicPlan Int,
      (startingPlan problem (allocations.map (Allocation.map embed))).result =
        .ok (start.map embed) ∧
      spanningBasis problem.cost (Amounts.merged allocations).cells problem.rows
        problem.cols = .ok start.basis ∧
      start.Proper problem.rows problem.cols ∧
      ∀ cell, start.amounts.getOrZero cell =
        (Amounts.merged allocations).getOrZero cell := by
  have nodup : (Amounts.merged allocations).cells.Nodup := Amounts.nodup_merged allocations
  have mergedInTable : ∀ cell ∈ (Amounts.merged allocations).cells,
      cell.InTable problem.rows problem.cols := by
    intro cell member
    obtain ⟨allocation, listed, rfl⟩ := Amounts.mem_cells_merged member
    exact inTable allocation listed
  obtain ⟨added, given, completed, spans, tree⟩ :=
    spanningBasis_eq_ok ordered shaped rowsPositive colsPositive mergedInTable loopless nodup
  obtain ⟨held, mem_iff, amount⟩ := Amounts.foldl_ensure added nodup
  refine ⟨⟨Cell.sort (Amounts.merged allocations).cells ++ added,
    added.foldl Amounts.ensure (Amounts.merged allocations)⟩, ?_, spans,
    ⟨tree, held, ?_, ?_⟩, amount⟩
  · have merges := Amounts.merge_map embedding allocations
    rw [Amounts.merge_eq_ok, map_ok] at merges
    rw [result_startingPlan, merges, ok_bind, Amounts.cells_mapAmounts, given, ok_bind,
      completed, ok_bind, Amounts.foldl_ensure_mapAmounts embedding]
    rfl
  · have sorted : (Cell.sort (Amounts.merged allocations).cells).Perm
        (Amounts.merged allocations).cells := List.mergeSort_perm _ _
    intro cell
    rw [mem_iff, List.mem_append, sorted.mem_iff, or_comm]
  · intro cell
    rw [amount, Amounts.getOrZero_merged]
    exact le_max_left 0 _

end Start

/-- The plans that pivots lead to: any cell of the table outside the basis may enter. -/
inductive Pivoted {α : Type} [Scalar α] (rows cols : Nat) (start : BasicPlan α) :
    BasicPlan α → Prop where
  | start : Pivoted rows cols start start
  | pivot {plan next : BasicPlan α} {entering : Cell} {pivot : Pivot α} :
      Pivoted rows cols start plan → entering.InTable rows cols →
      entering ∉ plan.basis → pivotFor plan entering = .ok pivot →
      plan.pivot pivot = .ok next → Pivoted rows cols start next

section Run

variable {α : Type} [Scalar α] {embed : Int → α} {rows cols : Nat}

/-- A pivot of an embedded plan is an embedded pivot. -/
theorem BasicPlan.Proper.pivot_map_eq_ok (embedding : Scalar.Embedding embed)
    {plan : BasicPlan Int} (proper : plan.Proper rows cols) (positive : 0 < rows)
    {entering : Cell} (inTable : entering.InTable rows cols)
    (absent : entering ∉ plan.basis) :
    ∃ (pivot : Pivot Int) (leaving : Cell) (next : BasicPlan Int),
      pivotFor (plan.map embed) entering = .ok (pivot.map embed) ∧
      pivot.leaving = some leaving ∧ ⟨leaving, .minus⟩ ∈ pivot.loop ∧
      (plan.map embed).pivot (pivot.map embed) = .ok (next.map embed) ∧
      next.Proper rows cols ∧ pivot.entering = entering ∧ plan.Shifts pivot next := by
  obtain ⟨pivot, leaving, next, found, leaves, loses, result, nextProper, shifts⟩ :=
    proper.pivot_eq_ok positive inTable absent
  refine ⟨pivot, leaving, next, ?_, leaves, loses, ?_, nextProper, shifts⟩
  · rw [pivotFor_map embedding, found, map_ok]
  · rw [plan.pivot_map embedding, result, map_ok]

/-- Every plan of a run is an embedded proper plan with the totals of the first one. -/
theorem Pivoted.proper (embedding : Scalar.Embedding embed) (positive : 0 < rows)
    {start : BasicPlan Int} (startProper : start.Proper rows cols) {plan : BasicPlan α}
    (reached : Pivoted rows cols (start.map embed) plan) :
    ∃ held : BasicPlan Int, plan = held.map embed ∧ held.Proper rows cols ∧
      ∀ line, lineTotal rows cols held.amounts.getOrZero line =
        lineTotal rows cols start.amounts.getOrZero line := by
  induction reached with
  | start => exact ⟨start, rfl, startProper, fun _ => rfl⟩
  | pivot _ inTable absent found result induction =>
      obtain ⟨held, rfl, proper, kept⟩ := induction
      obtain ⟨pivot, _, next, known, _, _, pivoted, nextProper, rfl, shifts⟩ :=
        proper.pivot_map_eq_ok embedding positive inTable absent
      obtain rfl := Except.ok.inj (found.symm.trans known)
      obtain rfl := Except.ok.inj (result.symm.trans pivoted)
      refine ⟨next, rfl, nextProper, fun line => ?_⟩
      rw [shifts.lineTotal_eq proper inTable, kept]

end Run

/-- The basis of a proper plan lists the cells of its amounts. -/
theorem BasicPlan.Proper.cells_perm {rows cols : Nat} {plan : BasicPlan Int}
    (proper : plan.Proper rows cols) : plan.amounts.cells.Perm plan.basis :=
  (List.perm_ext_iff_of_nodup proper.nodup proper.tree.nodup).mpr proper.mem_iff

theorem BasicPlan.Proper.entry_nonneg {rows cols : Nat} {plan : BasicPlan Int}
    (proper : plan.Proper rows cols) {entry : Cell × Int} (member : entry ∈ plan.amounts) :
    0 ≤ entry.2 := by
  have held := Amounts.getOrZero_of_mem proper.nodup member
  exact held ▸ proper.nonneg entry.1

/-- Allocations without a loop start a run of pivots in which no step fails.  Every plan
of the run has a spanning tree as its basis, holds a whole amount that is not negative
in exactly the basic cells, and ships over every line what the start does. -/
theorem pivots_keep_proper_plans {problem : Problem Number}
    (shaped : problem.cost.Shaped problem.rows problem.cols)
    (rowsPositive : 0 < problem.rows) (colsPositive : 0 < problem.cols)
    {allocations : List (Allocation Int)}
    (inTable : ∀ allocation ∈ allocations,
      allocation.cell.InTable problem.rows problem.cols) :
    ∃ amounts : Amounts Int,
      Amounts.merge (allocations.map (Allocation.map Number.integer)) =
        .ok (amounts.mapAmounts Number.integer) ∧
      (Loopless amounts.cells → ∃ start : BasicPlan Number,
        (startingPlan problem (allocations.map (Allocation.map Number.integer))).result =
          .ok start ∧
        spanningBasis problem.cost amounts.cells problem.rows problem.cols =
          .ok start.basis ∧
        ∀ plan, Pivoted problem.rows problem.cols start plan →
          (∃ held : Amounts Int, plan.amounts = held.mapAmounts Number.integer ∧
            held.cells.Perm plan.basis ∧ (∀ entry ∈ held, 0 ≤ entry.2) ∧
            ∀ line, lineTotal problem.rows problem.cols held.getOrZero line =
              lineTotal problem.rows problem.cols amounts.getOrZero line) ∧
          SpanningTree problem.rows problem.cols plan.basis ∧
          plan.basis.length + 1 = problem.rows + problem.cols ∧
          ∀ entering : Cell, entering.InTable problem.rows problem.cols →
            entering ∉ plan.basis →
            ∃ pivot leaving next, pivotFor plan entering = .ok pivot ∧
              pivot.leaving = some leaving ∧ ⟨leaving, .minus⟩ ∈ pivot.loop ∧
              plan.pivot pivot = .ok next) := by
  have embedding := Scalar.integer_embedding
  refine ⟨Amounts.merged allocations, ?_, fun loopless => ?_⟩
  · rw [Amounts.merge_map embedding, Amounts.merge_eq_ok, map_ok]
  · obtain ⟨start, result, basis, startProper, amount⟩ :=
      startingPlan_eq_ok embedding Scalar.precedes_number shaped rowsPositive colsPositive
        inTable loopless
    have merged : start.amounts.getOrZero = (Amounts.merged allocations).getOrZero :=
      funext amount
    refine ⟨start.map Number.integer, result, basis, fun plan reached => ?_⟩
    obtain ⟨held, rfl, proper, kept⟩ := reached.proper embedding rowsPositive startProper
    refine ⟨⟨held.amounts, rfl, proper.cells_perm, fun entry => proper.entry_nonneg, ?_⟩,
      proper.tree, proper.tree.length_add_one rowsPositive, ?_⟩
    · rw [← merged]
      exact kept
    · intro entering enteringInTable absent
      obtain ⟨pivot, leaving, next, found, leaves, loses, pivoted, _⟩ :=
        proper.pivot_map_eq_ok embedding rowsPositive enteringInTable absent
      exact ⟨_, leaving, _, found, leaves, loses, pivoted⟩

theorem square_plan_keeps_proper_plans :
    ∃ start : BasicPlan Number,
      (startingPlan
        ⟨[[.integer 4, .integer 6], [.integer 2, .integer 5]], [.integer 3, .integer 4],
          [.integer 5, .integer 2]⟩
        [⟨⟨0, 0⟩, .integer 3⟩, ⟨⟨1, 0⟩, .integer 2⟩, ⟨⟨1, 1⟩, .integer 2⟩]).result =
          .ok start ∧
      SpanningTree 2 2 start.basis := by
  let problem : Problem Number :=
    ⟨[[.integer 4, .integer 6], [.integer 2, .integer 5]], [.integer 3, .integer 4],
      [.integer 5, .integer 2]⟩
  let allocations : List (Allocation Int) :=
    [⟨⟨0, 0⟩, 3⟩, ⟨⟨1, 0⟩, 2⟩, ⟨⟨1, 1⟩, 2⟩]
  have shaped : problem.cost.Shaped problem.rows problem.cols :=
    ⟨rfl, by simp [problem, Problem.cols]⟩
  have inTable : ∀ allocation ∈ allocations,
      allocation.cell.InTable problem.rows problem.cols := by
    simp [allocations, Cell.InTable, problem, Problem.rows, Problem.cols]
  obtain ⟨amounts, merges, spans⟩ :=
    pivots_keep_proper_plans shaped (by decide) (by decide) inTable
  have merged : Amounts.merge (allocations.map (Allocation.map Number.integer)) =
      .ok [(⟨0, 0⟩, .integer 3), (⟨1, 0⟩, .integer 2), (⟨1, 1⟩, .integer 2)] := by
    rfl
  have cells : amounts.cells = [⟨0, 0⟩, ⟨1, 0⟩, ⟨1, 1⟩] := by
    rw [← Amounts.cells_mapAmounts Number.integer, ← Except.ok.inj (merged.symm.trans merges)]
    rfl
  have accepted : acyclic amounts.cells = .ok amounts.cells := by
    rw [cells]
    cbv
  obtain ⟨start, result, _, run⟩ := spans (acyclic_eq_ok_iff.mp accepted).2.1
  exact ⟨start, result, (run start .start).2.1⟩

end OptimalPlans.Transport
