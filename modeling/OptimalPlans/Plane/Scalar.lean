import OptimalPlans.Scalar

/-!
# Coordinates

What the geometry of the plane needs beyond the operations of scalars.  For
numbers a quotient is a double, boundaries with the coefficients one and zero are
written with doubles, and constraints are measured in doubles.  Rationals are
measured as they are.
-/

namespace OptimalPlans.Plane

class Coordinate (α : Type) extends Scalar α where
  div : α → α → Except Fault α
  /-- A whole number as a coordinate. -/
  whole : Int → α
  /-- The scalar in the arithmetic in which constraints are measured. -/
  measured : α → Except Fault α
  /-- A quotient without a negative zero. -/
  settled : α → Except Fault α

instance : Coordinate Number where
  div := Number.div
  whole n := .double (Double.ofInt n)
  measured a := a.toDouble.map .double
  settled a := a.add (.double 0)

instance : Coordinate Rat where
  div a b := if b = 0 then .error .integerDivisionByZero else .ok (a / b)
  whole n := n
  measured a := .ok a
  settled a := .ok a

end OptimalPlans.Plane
