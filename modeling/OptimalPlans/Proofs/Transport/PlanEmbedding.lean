import OptimalPlans.Proofs.Embedding
import OptimalPlans.Transport.Refinement

/-!
# Plans over embedded scalars

Tables, plans and pivots are embedded entry by entry.  Everything that the solvers do
with an embedded plan is the embedded outcome of doing it with the plan itself: reading
and merging amounts, pricing a plan, and shifting amounts around a loop.
-/

namespace OptimalPlans.Transport

section Maps

variable {α β : Type} (f : α → β)

def Table.mapEntries (table : Table α) : Table β :=
  table.map (List.map f)

def Allocation.map (allocation : Allocation α) : Allocation β :=
  ⟨allocation.cell, f allocation.amount⟩

def Problem.map (problem : Problem α) : Problem β :=
  ⟨problem.cost.mapEntries f, problem.supply.map f, problem.demand.map f⟩

def Amounts.mapAmounts (amounts : Amounts α) : Amounts β :=
  amounts.map fun entry => (entry.1, f entry.2)

def BasicPlan.map (plan : BasicPlan α) : BasicPlan β :=
  ⟨plan.basis, plan.amounts.mapAmounts f⟩

def Pivot.map (pivot : Pivot α) : Pivot β :=
  ⟨pivot.entering, pivot.loop, f pivot.theta, pivot.leaving⟩

@[simp] theorem Problem.rows_map (problem : Problem α) :
    (problem.map f).rows = problem.rows := by
  simp [Problem.map, Problem.rows]

@[simp] theorem Problem.cols_map (problem : Problem α) :
    (problem.map f).cols = problem.cols := by
  simp [Problem.map, Problem.cols]

@[simp] theorem BasicPlan.basis_map (plan : BasicPlan α) :
    (plan.map f).basis = plan.basis := rfl

theorem entryAt_map (values : List α) (index : Nat) :
    entryAt (values.map f) index = (entryAt values index).map f := by
  unfold entryAt
  rw [List.getElem?_map]
  cases values[index]? <;> rfl

theorem Table.entry_mapEntries (table : Table α) (cell : Cell) :
    (table.mapEntries f).entry cell = (table.entry cell).map f := by
  unfold Table.entry
  exact bind_agrees (entryAt_map _ table cell.row) fun row => entryAt_map f row cell.col

end Maps

/-! ## Amounts -/

namespace Amounts

section Maps

variable {α β : Type} (f : α → β) (amounts : Amounts α) (cell : Cell)

@[simp] theorem cells_mapAmounts : (amounts.mapAmounts f).cells = amounts.cells := by
  simp [cells, mapAmounts]

theorem get?_mapAmounts : (amounts.mapAmounts f).get? cell = (amounts.get? cell).map f := by
  induction amounts with
  | nil => rfl
  | cons entry rest induction =>
      obtain ⟨other, held⟩ := entry
      simp only [get?, mapAmounts, List.map_cons, List.lookup_cons] at induction ⊢
      split
      next => rfl
      next => exact induction

theorem put_mapAmounts (amount : α) :
    (amounts.mapAmounts f).put cell (f amount) =
      (amounts.put cell amount).mapAmounts f := by
  induction amounts with
  | nil => rfl
  | cons entry rest induction =>
      obtain ⟨other, held⟩ := entry
      by_cases same : other = cell
      · simp [mapAmounts, put, same]
      · simpa [mapAmounts, put, same] using induction

theorem erase_mapAmounts :
    (amounts.mapAmounts f).erase cell = (amounts.erase cell).mapAmounts f := by
  simp only [erase, mapAmounts, List.filter_map]
  rfl

theorem sort_mapAmounts : (amounts.mapAmounts f).sort = (amounts.sort).mapAmounts f := by
  symm
  apply List.map_mergeSort
  intro left _ right _
  rfl

end Maps

variable {α β : Type} [Scalar α] [Scalar β] {embed : α → β}
variable (embedding : Scalar.Embedding embed)
include embedding

theorem getOrZero_mapAmounts (amounts : Amounts α) (cell : Cell) :
    (amounts.mapAmounts embed).getOrZero cell = embed (amounts.getOrZero cell) := by
  rw [getOrZero, getOrZero, get?_mapAmounts, ← embedding.ofInt]
  cases amounts.get? cell <;> rfl

theorem ensure_mapAmounts (amounts : Amounts α) (cell : Cell) :
    (amounts.mapAmounts embed).ensure cell = (amounts.ensure cell).mapAmounts embed := by
  rw [ensure, ensure, get?_mapAmounts]
  cases amounts.get? cell with
  | some held => rfl
  | none => exact embedding.ofInt 0 ▸ put_mapAmounts embed amounts cell _

theorem foldl_ensure_mapAmounts (cells : List Cell) (amounts : Amounts α) :
    cells.foldl ensure (amounts.mapAmounts embed) =
      (cells.foldl ensure amounts).mapAmounts embed := by
  induction cells generalizing amounts with
  | nil => rfl
  | cons cell cells induction =>
      rw [List.foldl_cons, List.foldl_cons, ensure_mapAmounts embedding]
      exact induction _

theorem keepPositive_mapAmounts (amounts : Amounts α) :
    (amounts.mapAmounts embed).keepPositive =
      amounts.keepPositive.map (Amounts.mapAmounts embed) :=
  Scalar.filterBy_map fun entry _ => embedding.isPositive entry.2

theorem merge_map (allocations : List (Allocation α)) :
    merge (allocations.map (Allocation.map embed)) =
      (merge allocations).map (Amounts.mapAmounts embed) := by
  unfold merge
  refine bind_agrees ?_ (keepPositive_mapAmounts embedding)
  refine foldlM_map (fun amounts allocation => ?_) allocations rfl
  refine bind_agrees ?_ fun amount =>
    congrArg Except.ok (put_mapAmounts embed amounts allocation.cell amount)
  rw [Allocation.map, getOrZero_mapAmounts embedding, embedding.add]

theorem positive_mapAmounts (amounts : Amounts α) :
    (amounts.mapAmounts embed).positive =
      amounts.positive.map (List.map (Allocation.map embed)) := by
  unfold positive
  rw [sort_mapAmounts]
  refine bind_agrees (keepPositive_mapAmounts embedding _) fun kept => ?_
  simp [mapAmounts, Allocation.map]

end Amounts

/-! ## Bases -/

section Bases

variable {α β : Type} [Scalar α] [Scalar β] {embed : α → β}
variable (embedding : Scalar.Embedding embed)
include embedding

theorem candidates_mapEntries (cost : Table α) (basis : List Cell) (rows cols : Nat) :
    candidates (cost.mapEntries embed) basis rows cols =
      candidates cost basis rows cols := by
  let outside := (Cell.all rows cols).filter fun cell => !basis.contains cell
  let entered : α × Cell → β × Cell := fun entry => (embed entry.1, entry.2)
  have priced : outside.mapM (fun cell => do
        return (← (cost.mapEntries embed).entry cell, cell)) =
      (outside.mapM fun cell => do return (← cost.entry cell, cell)).map
        (List.map entered) := by
    apply mapM_agrees
    intro cell _
    exact bind_agrees (Table.entry_mapEntries embed cost cell) fun unit => rfl
  have unchanged : ∀ result : Except Fault (List Cell), result.map id = result :=
    fun result => by cases result <;> rfl
  rw [← unchanged (candidates cost basis rows cols)]
  unfold candidates
  apply bind_agrees priced
  intro entries
  apply bind_agrees (Scalar.sortBy_map (fun left right => ?_) entries)
  · intro sorted
    simp [entered]
  · exact embedding.precedes left.1 right.1

/-- An embedded table completes a basis with the same cells. -/
theorem spanningBasis_mapEntries (cost : Table α) (cells : List Cell) (rows cols : Nat) :
    spanningBasis (cost.mapEntries embed) cells rows cols =
      spanningBasis cost cells rows cols := by
  unfold spanningBasis completion
  simp only [candidates_mapEntries embedding]

end Bases

/-! ## Costs and pivots -/

section Plans

variable {α β : Type} [Scalar α] [Scalar β] {embed : α → β}
variable (embedding : Scalar.Embedding embed)
include embedding

theorem totalCost_map (cost : Table α) (allocations : List (Allocation α)) :
    totalCost (cost.mapEntries embed) (allocations.map (Allocation.map embed)) =
      (totalCost cost allocations).map embed := by
  refine foldlM_map (fun total allocation => ?_) allocations (embedding.ofInt 0).symm
  refine bind_agrees (Table.entry_mapEntries embed cost allocation.cell) fun unit => ?_
  refine bind_agrees (embedding.mul allocation.amount unit) fun part => ?_
  exact embedding.add total part

theorem bottleneck_mapAmounts (amounts : Amounts α) (loop : List LoopCell) :
    bottleneck (amounts.mapAmounts embed) loop =
      (bottleneck amounts loop).map fun best => (embed best.1, best.2) := by
  unfold bottleneck
  let held : α × Cell → β × Cell := fun best => (embed best.1, best.2)
  have begins : (none : Option (β × Cell)) = Option.map held none := rfl
  refine bind_agrees (foldlM_agrees (fun best step => ?_) loop begins) fun best => ?_
  · cases step.sign with
    | plus => rfl
    | minus =>
        rw [Amounts.getOrZero_mapAmounts embedding]
        cases best with
        | none =>
            refine bind_unchanged (embedding.bounded _) fun wins => ?_
            cases wins <;> rfl
        | some least =>
            refine bind_unchanged (embedding.less _ _) fun wins => ?_
            cases wins <;> rfl
  · cases best with
    | none => exact congrArg (fun zero => Except.ok (zero, none)) (embedding.ofInt 0).symm
    | some least => rfl

theorem shift_map (theta : α) (amounts : Amounts α) (step : LoopCell) :
    shift (embed theta) (amounts.mapAmounts embed) step =
      (shift theta amounts step).map (Amounts.mapAmounts embed) := by
  unfold shift
  cases step.sign with
  | plus =>
      rw [Amounts.getOrZero_mapAmounts embedding]
      refine bind_agrees (embedding.add _ theta) fun total => ?_
      exact congrArg Except.ok (Amounts.put_mapAmounts embed amounts step.cell total)
  | minus =>
      rw [Amounts.get?_mapAmounts]
      cases amounts.get? step.cell with
      | none => rfl
      | some held =>
          refine bind_agrees (embedding.sub held theta) fun rest => ?_
          exact congrArg Except.ok (Amounts.put_mapAmounts embed amounts step.cell rest)

theorem BasicPlan.shiftAround_map (plan : BasicPlan α) (loop : List LoopCell) (theta : α)
    (leaving : Option Cell) :
    (plan.map embed).shiftAround loop (embed theta) leaving =
      (plan.shiftAround loop theta leaving).map (BasicPlan.map embed) := by
  unfold BasicPlan.shiftAround
  refine bind_agrees (foldlM_agrees (shift_map embedding theta) loop rfl) fun amounts => ?_
  cases loop with
  | nil => rfl
  | cons entering later =>
      cases leaving with
      | none => rfl
      | some cell => simp [BasicPlan.map, Amounts.erase_mapAmounts]

theorem BasicPlan.pivot_map (plan : BasicPlan α) (pivot : Pivot α) :
    (plan.map embed).pivot (pivot.map embed) =
      (plan.pivot pivot).map (BasicPlan.map embed) :=
  plan.shiftAround_map embedding pivot.loop pivot.theta pivot.leaving

theorem pivotFor_map (plan : BasicPlan α) (entering : Cell) :
    pivotFor (plan.map embed) entering = (pivotFor plan entering).map (Pivot.map embed) := by
  unfold pivotFor
  refine bind_unchanged rfl fun loop => ?_
  exact bind_agrees (bottleneck_mapAmounts embedding plan.amounts loop) fun best => rfl

end Plans

end OptimalPlans.Transport
