import OptimalPlans.Proofs.Transport.BasicStart

/-!
# First plans of any numbers

The rules for a first plan run on an accepted problem whatever kind of numbers it has.
They serve cells of the table only, and the one thing that can stop them is an integer that
is too large to be rounded.  With the refinement the same holds of every method, unless the
limit or the tolerance fails.
-/

namespace OptimalPlans.Transport

variable {mayFail : Fault → Prop}

/-! ## Quantities -/

theorem yields_sub (overflow : mayFail .integerTooLarge) (left right : Number) :
    Yields mayFail (fun _ => True) (Scalar.sub left right) :=
  Number.yields_combine overflow _ _ left right

theorem yields_smaller (left right : Number) :
    Yields mayFail (fun _ => True) (Scalar.smaller left right) := by
  cases below : right.less left <;> simp [Scalar.smaller, Scalar.less, below]

theorem yields_takeAt (overflow : mayFail .integerTooLarge) {quantities : List Number}
    {index : Nat} (bound : index < quantities.length) (amount : Number) :
    Yields mayFail (fun rest => rest.length = quantities.length)
      (takeAt quantities index amount) := by
  refine (yields_entryAt bound).bind fun held _ => ?_
  exact (yields_sub overflow held amount).bind fun rest _ => List.length_set

/-- Serving a cell of the table leaves as many quantities as there were. -/
theorem yields_serve (overflow : mayFail .integerTooLarge) {supply demand : List Number}
    {cell : Cell} (inTable : cell.InTable supply.length demand.length)
    {later : List Number → List Number → Except Fault (List (Allocation Number))}
    (goesOn : ∀ supplyLeft demandLeft : List Number, supplyLeft.length = supply.length →
      demandLeft.length = demand.length →
      Yields mayFail (WithinTable supply.length demand.length) (later supplyLeft demandLeft)) :
    Yields mayFail (WithinTable supply.length demand.length) (do
      let available ← entryAt supply cell.row
      let wanted ← entryAt demand cell.col
      let amount ← Scalar.smaller available wanted
      let supply ← takeAt supply cell.row amount
      let demand ← takeAt demand cell.col amount
      let later ← later supply demand
      return ⟨cell, amount⟩ :: later) := by
  refine (yields_entryAt inTable.1).bind fun available _ => ?_
  refine (yields_entryAt inTable.2).bind fun wanted _ => ?_
  refine (yields_smaller available wanted).bind fun amount _ => ?_
  refine (yields_takeAt overflow inTable.1 amount).bind fun supplyLeft supplyLength => ?_
  refine (yields_takeAt overflow inTable.2 amount).bind fun demandLeft demandLength => ?_
  refine (goesOn supplyLeft demandLeft supplyLength demandLength).bind fun allocations listed => ?_
  exact List.forall_mem_cons.mpr ⟨inTable, listed⟩

/-! ## The rules -/

/-- At a corner the walk ships what the lines allow, goes on, and lists the corner if it has
shipped something. -/
theorem northWestFrom_corner (row col : Nat) (available wanted : Number)
    (supply demand : List Number) :
    northWestFrom row col (available :: supply) (wanted :: demand) = do
      let amount ← Scalar.smaller available wanted
      let ships ← Scalar.isPositive amount
      let left ← if ships then Scalar.sub available amount else pure available
      let owed ← if ships then Scalar.sub wanted amount else pure wanted
      let later ← northWestOn row col left owed supply demand
      return if ships then ⟨⟨row, col⟩, amount⟩ :: later else later := by
  rw [northWestFrom]
  refine bind_congr fun amount => bind_congr fun ships => ?_
  cases ships with
  | false =>
      simp only [Bool.false_eq_true, if_false, pure_eq_ok, ok_bind, northWestOn]
      cases Scalar.isZero available <;> cases Scalar.isZero wanted <;> rfl
  | true =>
      simp only [if_true, northWestOn]
      refine bind_congr fun left => bind_congr fun owed => ?_
      cases Scalar.isZero left <;> cases Scalar.isZero owed <;> rfl

/-- The walk of the north-west rule stays within the table whose corner it has reached. -/
theorem yields_northWestFrom (overflow : mayFail .integerTooLarge) {rows cols row col : Nat}
    {supply demand : List Number} (rowsLeft : row + supply.length = rows)
    (colsLeft : col + demand.length = cols) :
    Yields mayFail (WithinTable rows cols) (northWestFrom row col supply demand) := by
  induction total : supply.length + demand.length using Nat.strong_induction_on
    generalizing row col supply demand with
  | _ size induction =>
      cases supply with
      | nil => simp [northWestFrom]
      | cons available supply =>
          cases demand with
          | nil => simp [northWestFrom]
          | cons wanted demand =>
              simp only [List.length_cons] at total rowsLeft colsLeft
              have corner : Cell.InTable rows cols ⟨row, col⟩ := by
                constructor <;> dsimp only <;> omega
              have goesOn : ∀ left owed : Number, Yields mayFail (WithinTable rows cols)
                  (northWestOn row col left owed supply demand) := by
                intro left owed
                unfold northWestOn
                split
                · exact induction _ (by omega) (by omega) (by omega) rfl
                · exact induction _ (by simp; omega) (by omega) colsLeft rfl
                · exact induction _ (by simp; omega) rowsLeft (by omega) rfl
                · exact WithinTable.nil rows cols
              rw [northWestFrom_corner]
              refine (yields_smaller available wanted).bind fun amount _ => ?_
              have tested : Scalar.isPositive amount = .ok ((Number.integer 0).less amount) := rfl
              rw [tested, ok_bind]
              cases (Number.integer 0).less amount with
              | false => exact (goesOn available wanted).bind fun _ listed => listed
              | true =>
                  refine (yields_sub overflow available amount).bind fun left _ => ?_
                  refine (yields_sub overflow wanted amount).bind fun owed _ => ?_
                  exact (goesOn left owed).bind fun _ listed =>
                    List.forall_mem_cons.mpr ⟨corner, listed⟩

theorem yields_leastCostWithin (overflow : mayFail .integerTooLarge) {cost : Table Number}
    (budget : Nat) {supply demand : List Number}
    (shaped : cost.Shaped supply.length demand.length) :
    Yields mayFail (WithinTable supply.length demand.length)
      (leastCostWithin cost budget supply demand) := by
  induction budget generalizing supply demand with
  | zero => simp [leastCostWithin]
  | succ budget induction =>
      have inTable : ∀ cell ∈ openCells supply demand,
          cell.InTable supply.length demand.length := fun cell member =>
        Cell.mem_all_iff.mp (List.mem_of_mem_filter member)
      obtain ⟨best, result, chosen, _⟩ := cheapest_eq_ok shaped inTable
      rw [leastCostWithin, result, ok_bind]
      cases best with
      | none => simp
      | some cell =>
          refine yields_serve overflow (inTable cell (chosen cell rfl))
            fun supplyLeft demandLeft supplyLength demandLength => ?_
          rw [← supplyLength, ← demandLength] at shaped ⊢
          exact induction shaped

theorem yields_penaltyRuleWithin (overflow : mayFail .integerTooLarge) {cost : Table Number}
    (budget : Nat) {supply demand : List Number}
    (shaped : cost.Shaped supply.length demand.length)
    (comparable : cost.Comparable supply.length demand.length) :
    Yields mayFail (WithinTable supply.length demand.length)
      (penaltyRuleWithin cost budget supply demand) := by
  induction budget generalizing supply demand with
  | zero => simp [penaltyRuleWithin]
  | succ budget induction =>
      have bounded : ∀ {quantities : List Number} {index : Nat},
          index ∈ openLines quantities → index < quantities.length := fun member =>
        List.mem_range.mp (List.mem_of_mem_filter member)
      rw [penaltyRuleWithin]
      cases rowsOpen : openLines supply with
      | nil => simp
      | cons firstRow laterRows =>
          cases colsOpen : openLines demand with
          | nil => simp
          | cons firstCol laterCols =>
              have rowsInTable : ∀ row ∈ firstRow :: laterRows, row < supply.length :=
                fun row member => bounded (rowsOpen ▸ member)
              have colsInTable : ∀ col ∈ firstCol :: laterCols, col < demand.length :=
                fun col member => bounded (colsOpen ▸ member)
              obtain ⟨cell, chosen, rowMember, colMember⟩ :=
                penaltyCell_eq_ok shaped comparable rowsInTable colsInTable
              dsimp only
              rw [chosen, ok_bind]
              refine yields_serve overflow
                ⟨rowsInTable _ rowMember, colsInTable _ colMember⟩
                fun supplyLeft demandLeft supplyLength demandLength => ?_
              rw [← supplyLength, ← demandLength] at shaped comparable ⊢
              exact induction shaped comparable

/-- A rule lists cells of the table, unless an integer is too large to be rounded. -/
theorem Problem.Accepted.yields_plan (overflow : mayFail .integerTooLarge)
    {problem : Problem Number} (accepted : problem.Accepted) (rule : InitialRule) :
    Yields mayFail (WithinTable problem.rows problem.cols) (rule.plan problem).result := by
  rw [result_plan]
  cases rule with
  | northWest => exact yields_northWestFrom overflow (Nat.zero_add _) (Nat.zero_add _)
  | leastCost => exact yields_leastCostWithin overflow _ accepted.shaped
  | penalty => exact yields_penaltyRuleWithin overflow _ accepted.shaped accepted.comparable

/-! ## Solving -/

/-- An accepted problem is solved by every method, unless an integer is too large to be
rounded, the allocations of the rule form a loop, or the limit or the tolerance fails. -/
theorem Problem.Accepted.yields_solveBy (overflow : mayFail .integerTooLarge)
    (cyclic : mayFail .cyclicPlan) {problem : Problem Number} (accepted : problem.Accepted)
    (method : Method) {limit : Except Fault Int} (limited : Yields mayFail (fun _ => True) limit)
    {tolerance : Except Fault Number} (tolerated : Yields mayFail (fun _ => True) tolerance) :
    Yields mayFail (fun _ => True) (solveBy method problem limit tolerance).result := by
  cases method with
  | initial rule =>
      simp only [solveBy, Journal.result_bind, Journal.result_monadLift]
      refine (accepted.yields_plan overflow rule).bind fun allocations within => ?_
      exact (yields_totalCost overflow accepted.shaped within).bind fun _ _ => trivial
  | refined =>
      simp only [solveBy, Journal.result_bind, result_refine]
      have penalized : Yields mayFail (WithinTable problem.rows problem.cols)
          (initialAllocations problem none) := by
        have listed := accepted.yields_plan overflow .penalty
        rwa [result_plan] at listed
      have started : Yields mayFail (fun _ => True) (do
          let allocations ← initialAllocations problem none
          let plan ← (startingPlan problem allocations).result
          let limit ← limit
          (refineFrom problem limit tolerance limit.toNat 0 plan).result) := by
        refine penalized.bind fun allocations within => ?_
        refine (yields_startingPlan overflow cyclic accepted.shaped accepted.rows_pos
          accepted.cols_pos within).bind fun plan connected => ?_
        refine limited.bind fun limit _ => ?_
        exact connected.yields_refineFrom overflow accepted.shaped accepted.rows_pos limit
          tolerated limit.toNat 0
      exact started.bind fun _ _ => trivial

end OptimalPlans.Transport
