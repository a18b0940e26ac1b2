import OptimalPlans.Transport.Basic

/-!
# The north-west corner rule

The table is walked from its top left corner.  Each cell ships as much as its row
and column still allow, and a line that has nothing left is never visited again.
Costs play no part.
-/

namespace OptimalPlans.Transport

variable {α : Type} [Scalar α]

/-- The walk from row `row` and column `col`, given what is left from there on.
It ends where neither line is used up, which happens only for quantities that are
negative or not finite. -/
def northWestFrom (row col : Nat) :
    List α → List α → Except Fault (List (Allocation α))
  | available :: supply, wanted :: demand => do
      let amount ← Scalar.smaller available wanted
      let ships ← Scalar.isPositive amount
      let left ← if ships then Scalar.sub available amount else pure available
      let owed ← if ships then Scalar.sub wanted amount else pure wanted
      let later ←
        match Scalar.isZero left, Scalar.isZero owed with
        | true, true => northWestFrom (row + 1) (col + 1) supply demand
        | true, false => northWestFrom (row + 1) col supply (owed :: demand)
        | false, true => northWestFrom row (col + 1) (left :: supply) demand
        | false, false => pure []
      return if ships then ⟨⟨row, col⟩, amount⟩ :: later else later
  | _, _ => .ok []
termination_by supply demand => supply.length + demand.length

def northWest (problem : Problem α) : Except Fault (List (Allocation α)) :=
  northWestFrom 0 0 problem.supply problem.demand

end OptimalPlans.Transport
