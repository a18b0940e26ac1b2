import OptimalPlans.Proofs.Number.Negation
import OptimalPlans.Proofs.Transport.Acceptance
import OptimalPlans.Proofs.Transport.PivotRun
import OptimalPlans.Proofs.Transport.ReducedCosts
import OptimalPlans.Proofs.Transport.RuleEmbedding
import OptimalPlans.Transport.Solution

/-!
# Steps of the refinement

On a problem of integers, read as numbers, a step of the refinement prices the basis of a
proper plan.  Either every cell costs at least what its lines are worth, and the
refinement ends there, or a cell enters and the next plan is proper again.
-/

namespace OptimalPlans.Transport

/-- A tolerance from zero up to one. -/
structure Tolerance (tolerance : Number) : Prop where
  nonneg : (Number.integer 0).lessEq tolerance = true
  small : tolerance.less (.integer 1) = true

theorem tolerance_default : Tolerance defaultTolerance :=
  ⟨by decide +kernel, by decide +kernel⟩

section Step

variable {α : Type} [Scalar α]

theorem result_refineFrom_zero (problem : Problem α) (limit : Int)
    (tolerance : Except Fault α) (step : Nat) (plan : BasicPlan α) :
    (refineFrom problem limit tolerance 0 step plan).result = do
      let final ← plan.amounts.positive
      let total ← totalCost problem.cost final
      return { iterations := [], optimal := false, allocations := final,
               totalCost := total, alternatives := [] } := by
  simp [refineFrom]

theorem result_refineFrom_succ (problem : Problem α) (limit : Int)
    (tolerance : Except Fault α) (budget step : Nat) (plan : BasicPlan α) :
    (refineFrom problem limit tolerance (budget + 1) step plan).result = do
      let potentials ←
        Potentials.ofBasis problem.cost plan.basis problem.rows problem.cols
      let reduced ← potentials.reducedCosts problem.cost
      let tolerated ← tolerance
      let entering ← enteringCell reduced plan.basis tolerated
      let current ← plan.amounts.positive
      let total ← totalCost problem.cost current
      match entering with
      | none => do
          let ties ← alternatives problem plan.basis reduced tolerated
          return { iterations := [⟨step, current, potentials, reduced, total, none⟩],
                   optimal := true, allocations := current, totalCost := total,
                   alternatives := ties }
      | some cell => do
          let pivot ← pivotFor plan cell
          let _ ← reduced.entry cell
          let next ← plan.pivot pivot
          let later ← (refineFrom problem limit tolerance budget (step + 1) next).result
          return { later with
            iterations :=
              ⟨step, current, potentials, reduced, total, some pivot⟩ ::
                later.iterations } := by
  rw [refineFrom]
  simp only [Journal.result_bind, Journal.result_monadLift]
  refine bind_congr fun potentials => bind_congr fun reduced => bind_congr fun tolerated =>
    bind_congr fun entering => bind_congr fun current => bind_congr fun total => ?_
  cases entering with
  | none => simp
  | some cell => simp

end Step

/-- The allocations that a refinement starts from. -/
def initialAllocations {α : Type} [Scalar α] (problem : Problem α) :
    Option (List (Allocation α)) → Except Fault (List (Allocation α))
  | some allocations => .ok allocations
  | none => penaltyRule problem

theorem result_refine {α : Type} [Scalar α] (problem : Problem α)
    (initial : Option (List (Allocation α))) (limit : Except Fault Int)
    (tolerance : Except Fault α) :
    (refine problem initial limit tolerance).result = (do
      let allocations ← initialAllocations problem initial
      let plan ← (startingPlan problem allocations).result
      let limit ← limit
      (refineFrom problem limit tolerance limit.toNat 0 plan).result) := by
  cases initial <;> simp [refine, notedPenaltyRule, initialAllocations]

/-- What a proper plan ships, as numbers. -/
theorem BasicPlan.Proper.positive_eq_ok {rows cols : Nat} {plan : BasicPlan Int}
    (proper : plan.Proper rows cols) :
    (plan.map Number.integer).amounts.positive =
        .ok (plan.amounts.positiveAllocations.map (Allocation.map Number.integer)) ∧
      ∀ allocation ∈ plan.amounts.positiveAllocations, allocation.cell.InTable rows cols := by
  constructor
  · rw [BasicPlan.map, Amounts.positive_mapAmounts Scalar.integer_embedding,
      Amounts.positive_eq_ok, map_ok]
  · intro allocation member
    exact proper.tree.inTable _
      ((proper.mem_iff _).mp (Amounts.mem_positiveAllocations member).1)

section Integers

variable {problem : Problem Int} {plan : BasicPlan Int}

/-- Prices of a proper plan that no cell undercuts. -/
structure Certified (problem : Problem Int) (plan : BasicPlan Int) (price : Line → Int) :
    Prop where
  proper : plan.Proper problem.rows problem.cols
  prices : Prices problem.cost plan.basis price
  covered : ∀ cell : Cell, cell.InTable problem.rows problem.cols →
    0 ≤ reducedPrice problem.cost price cell

/-- The basis of a proper plan has potentials and reduced costs, read as numbers. -/
theorem BasicPlan.Proper.priced_eq_ok (valid : problem.Valid)
    (proper : plan.Proper problem.rows problem.cols) :
    ∃ price, Prices problem.cost plan.basis price ∧
      Potentials.ofBasis (problem.map Number.integer).cost plan.basis problem.rows
        problem.cols =
          .ok ((Potentials.priced problem.rows problem.cols price).map Number.integer) ∧
      ((Potentials.priced problem.rows problem.cols price).map Number.integer).reducedCosts
          (problem.map Number.integer).cost =
        .ok ((reducedTable problem.cost price).mapEntries (Option.map Number.integer)) := by
  have embedding := Scalar.integer_embedding
  obtain ⟨price, prices, origin⟩ :=
    proper.tree.loopless.exists_prices_from problem.cost proper.tree.nodup 0
  have resolved :=
    Potentials.ofBasis_eq_ok valid.shaped valid.rows_pos proper.tree prices origin
  refine ⟨price, prices, ?_, ?_⟩
  · exact (Potentials.ofBasis_map embedding problem.cost plan.basis _ _).trans
      (congrArg (Except.map _) resolved)
  · exact (Potentials.reducedCosts_map embedding _ problem.cost).trans
      (congrArg (Except.map _) (reducedCosts_eq_ok valid.shaped))

/-- The cost of a plan over the integers. -/
def planTotal (problem : Problem Int) (amount : Cell → Int) : Int :=
  tableTotal problem.rows problem.cols fun cell => problem.cost.price cell * amount cell

/-- The cost of allocations of the table, read as numbers. -/
theorem Problem.Valid.totalCost_map_eq_ok (valid : problem.Valid)
    {allocations : List (Allocation Int)}
    (inTable : ∀ allocation ∈ allocations, allocation.cell.InTable problem.rows problem.cols) :
    totalCost (problem.map Number.integer).cost
        (allocations.map (Allocation.map Number.integer)) =
      .ok (.integer (planTotal problem (shipped allocations))) :=
  (totalCost_map Scalar.integer_embedding problem.cost _).trans
    (congrArg (Except.map _) (totalCost_eq_ok valid.shaped inTable))

/-- Allocations of the table without a loop start a proper plan, read as numbers. -/
theorem Problem.Valid.startingPlan_eq_ok (valid : problem.Valid)
    {allocations : List (Allocation Int)}
    (inTable : ∀ allocation ∈ allocations, allocation.cell.InTable problem.rows problem.cols)
    (loopless : Loopless (Amounts.merged allocations).cells) :
    ∃ plan : BasicPlan Int,
      (startingPlan (problem.map Number.integer)
        (allocations.map (Allocation.map Number.integer))).result =
          .ok (plan.map Number.integer) ∧
      plan.Proper problem.rows problem.cols ∧
      plan.amounts.getOrZero = (Amounts.merged allocations).getOrZero := by
  have shaped : (problem.map Number.integer).cost.Shaped (problem.map Number.integer).rows
      (problem.map Number.integer).cols := by
    rw [Problem.rows_map, Problem.cols_map]
    exact valid.shaped.mapEntries Number.integer
  obtain ⟨plan, starts, _, proper, amount⟩ :=
    Transport.startingPlan_eq_ok Scalar.integer_embedding Scalar.precedes_number shaped
      (by simpa using valid.rows_pos) (by simpa using valid.cols_pos) (by simpa using inTable)
      loopless
  rw [Problem.rows_map, Problem.cols_map] at proper
  exact ⟨plan, starts, proper, funext amount⟩

/-- A proper plan lists what it ships. -/
theorem BasicPlan.Proper.shipped_eq (proper : plan.Proper problem.rows problem.cols) :
    shipped plan.amounts.positiveAllocations = plan.amounts.getOrZero := by
  funext cell
  rw [Amounts.shipped_positiveAllocations proper.nodup, max_eq_right (proper.nonneg cell)]

/-- Either no cell enters and the prices certify the plan, or one outside the basis enters
that costs less than its lines are worth. -/
theorem enteringCell_certifies {tolerance : Number} (tolerated : Tolerance tolerance)
    (valid : problem.Valid) (proper : plan.Proper problem.rows problem.cols)
    {price : Line → Int} (prices : Prices problem.cost plan.basis price) :
    ∃ entering,
      enteringCell ((reducedTable problem.cost price).mapEntries (Option.map Number.integer))
        plan.basis tolerance = .ok entering ∧
      (entering = none → Certified problem plan price) ∧
      ∀ cell, entering = some cell → cell.InTable problem.rows problem.cols ∧
        cell ∉ plan.basis ∧ reducedPrice problem.cost price cell < 0 := by
  have signed : ∀ value, Scalar.less (Number.integer value) tolerance.neg =
      .ok (decide (value < 0)) := fun value =>
    congrArg Except.ok (Number.less_neg_tolerance tolerated.nonneg tolerated.small value)
  obtain ⟨entering, result, least, below, chosen, unchosen⟩ :=
    enteringCell_eq_ok Scalar.integer_embedding rfl signed
      (reducedTable problem.cost price) plan.basis
  have entries := fun {cell value} =>
    @mem_entries_reducedTable _ _ _ price valid.shaped cell value
  refine ⟨entering, result, fun none => ⟨proper, prices, fun cell inTable => ?_⟩,
    fun cell found => ?_⟩
  · by_cases basic : cell ∈ plan.basis
    · exact (reducedPrice_of_mem prices basic).ge
    · have bound := below cell _ (entries.mpr ⟨inTable, rfl⟩) basic
      rwa [unchosen none] at bound
  · obtain ⟨member, absent, negative⟩ := chosen cell found
    obtain ⟨inTable, reduced⟩ := entries.mp member
    exact ⟨inTable, absent, Option.some.inj reduced ▸ negative⟩

end Integers

end OptimalPlans.Transport
