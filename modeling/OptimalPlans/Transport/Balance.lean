import OptimalPlans.Transport.Basic

/-!
# Balancing

A problem whose supply and demand differ gets a dummy line that absorbs the
difference at no cost: a column for supply in excess, a row for demand in excess.
-/

namespace OptimalPlans.Transport

/-- The dummy line of a balanced problem and its quantity. -/
inductive Dummy (α : Type) where
  | column (quantity : α)
  | row (quantity : α)

variable {α : Type} [Scalar α]

def balance (problem : Problem α) :
    Except Fault (Problem α × Option (Dummy α)) := do
  let supplied ← Scalar.sum problem.supply
  let demanded ← Scalar.sum problem.demand
  let difference ← Scalar.sub supplied demanded
  if Scalar.isZero difference then
    return (problem, none)
  else if ← Scalar.isPositive difference then
    return ({ problem with
      cost := problem.cost.map fun row => row ++ [Scalar.ofInt 0]
      demand := problem.demand ++ [difference] }, some (.column difference))
  else
    let missing ← Scalar.neg difference
    return ({ problem with
      cost := problem.cost ++ [List.replicate problem.cols (Scalar.ofInt 0)]
      supply := problem.supply ++ [missing] }, some (.row missing))

end OptimalPlans.Transport
