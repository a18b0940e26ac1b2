import OptimalPlans.Number.Text

/-!
# Scalars

The operations that the solvers ask of the quantities, costs and coordinates they
compute with.  Every operation may fail with a fault.  Integers and rationals are
exact and never fail; numbers round doubles and may overflow.
-/

namespace OptimalPlans

class Scalar (α : Type) where
  ofInt : Int → α
  text : α → String
  add : α → α → Except Fault α
  sub : α → α → Except Fault α
  mul : α → α → Except Fault α
  neg : α → Except Fault α
  abs : α → Except Fault α
  same : α → α → Bool
  less : α → α → Except Fault Bool
  lessEq : α → α → Except Fault Bool
  greater : α → α → Except Fault Bool
  greaterEq : α → α → Except Fault Bool
  /-- Whether the scalar is below every bound, so that it can open a search for
  the smallest one. -/
  bounded : α → Except Fault Bool

namespace Scalar

instance : Scalar Int where
  ofInt n := n
  text n := toString n
  add a b := .ok (a + b)
  sub a b := .ok (a - b)
  mul a b := .ok (a * b)
  neg a := .ok (-a)
  abs a := .ok a.natAbs
  same a b := a == b
  less a b := .ok (a < b)
  lessEq a b := .ok (a ≤ b)
  greater a b := .ok (b < a)
  greaterEq a b := .ok (b ≤ a)
  bounded _ := .ok true

instance : Scalar Rat where
  ofInt n := n
  text q := toString q
  add a b := .ok (a + b)
  sub a b := .ok (a - b)
  mul a b := .ok (a * b)
  neg a := .ok (-a)
  abs a := .ok (if a < 0 then -a else a)
  same a b := a == b
  less a b := .ok (a < b)
  lessEq a b := .ok (a ≤ b)
  greater a b := .ok (b < a)
  greaterEq a b := .ok (b ≤ a)
  bounded _ := .ok true

instance : Scalar Number where
  ofInt := .integer
  text := Number.text
  add := Number.add
  sub := Number.sub
  mul := Number.mul
  neg a := .ok a.neg
  abs a := .ok a.abs
  same := Number.same
  less a b := .ok (a.less b)
  lessEq a b := .ok (a.lessEq b)
  greater a b := .ok (b.less a)
  greaterEq a b := .ok (b.lessEq a)
  bounded a := .ok a.isBounded

variable {α : Type} [Scalar α]

def isZero (a : α) : Bool :=
  same a (ofInt 0)

def isPositive (a : α) : Except Fault Bool :=
  greater a (ofInt 0)

/-- The order in which values are listed: equal values are not compared. -/
def precedes (a b : α) : Except Fault Bool :=
  if same a b then .ok false else less a b

/-- The smaller of two scalars, the first on a tie. -/
def smaller (a b : α) : Except Fault α := do
  if ← less b a then return b else return a

/-- The sum from left to right, starting at zero. -/
def sum (values : List α) : Except Fault α :=
  values.foldlM add (ofInt 0)

/-- The values that pass a test, in their order. -/
def filterBy {β : Type} (test : β → Except Fault Bool) :
    List β → Except Fault (List β)
  | [] => .ok []
  | value :: rest => do
      if ← test value then
        return value :: (← filterBy test rest)
      else
        filterBy test rest

/-- The value that no later one beats, the earliest among equals. -/
def pick {β : Type} (beats : β → β → Except Fault Bool) :
    β → List β → Except Fault β
  | best, [] => .ok best
  | best, value :: rest => do
      if ← beats value best then pick beats value rest else pick beats best rest

/-- Inserts a value behind the last one it is not less than, seen from the end
of an ascending list that is kept in reverse. -/
def insertFromEnd {β : Type} (less : β → β → Except Fault Bool) (value : β) :
    List β → Except Fault (List β)
  | [] => .ok [value]
  | last :: rest => do
      if ← less value last then
        return last :: (← insertFromEnd less value rest)
      else
        return value :: last :: rest

/-- The values in ascending order; equal ones keep their order. -/
def sortBy {β : Type} (less : β → β → Except Fault Bool) (values : List β) :
    Except Fault (List β) := do
  let descending ← values.foldlM (fun done value => insertFromEnd less value done) []
  return descending.reverse

end Scalar

end OptimalPlans
