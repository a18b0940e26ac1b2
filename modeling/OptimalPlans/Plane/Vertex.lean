import OptimalPlans.Plane.Constraint

/-!
# Vertices

Where the boundary lines of two constraints meet, which points satisfy every
constraint, and which of a list of points are distinct, all within a tolerance.
-/

namespace OptimalPlans.Plane

structure Point (α : Type) where
  x : α
  y : α
deriving DecidableEq, Repr

def Point.text {α : Type} [Scalar α] (point : Point α) : String :=
  "(" ++ Scalar.text point.x ++ ", " ++ Scalar.text point.y ++ ")"

variable {α : Type}

section

variable [Coordinate α]

/-- `a * d - b * c` -/
def determinant (a b c d : α) : Except Fault α := do
  let main ← Scalar.mul a d
  let side ← Scalar.mul b c
  Scalar.sub main side

/-- The common point of two boundary lines, unless they are parallel: their
determinant is within the tolerance of zero. -/
def intersection (first second : Constraint α) (tolerance : α) :
    Except Fault (Option (Point α)) := do
  let slope ← determinant first.a first.b second.a second.b
  if ← Scalar.less (← Scalar.abs slope) tolerance then
    return none
  else
    let x ← Coordinate.div (← determinant first.rhs first.b second.rhs second.b) slope
    let y ← Coordinate.div (← determinant first.a first.rhs second.a second.rhs) slope
    return some { x := ← Coordinate.settled x, y := ← Coordinate.settled y }

/-- Whether a value of the left side satisfies a constraint.  The value is measured,
and so is the bound it is compared with. -/
def Constraint.holdsAt (constraint : Constraint α) (value tolerance : α) :
    Except Fault Bool := do
  match constraint.relation with
  | .atMost =>
      let bound ← Scalar.add constraint.rhs tolerance
      return !(← Scalar.greater value (← Coordinate.measured bound))
  | .atLeast =>
      let bound ← Scalar.sub constraint.rhs tolerance
      return !(← Scalar.less value (← Coordinate.measured bound))
  | .equal =>
      let gap ← Scalar.abs (← Scalar.sub value constraint.rhs)
      return !(← Scalar.greater gap (← Coordinate.measured tolerance))

/-- Whether all of a list of constraints hold, given the values of their left
sides. -/
def allHold (tolerance : α) : List (Constraint α × α) → Except Fault Bool
  | [] => .ok true
  | (constraint, value) :: rest => do
      if ← constraint.holdsAt value tolerance then allHold tolerance rest
      else return false

def isFeasible (constraints : List (Constraint α)) (tolerance : α) (point : Point α) :
    Except Fault Bool := do
  let rows ← constraints.mapM fun constraint => do
    return (← Coordinate.measured constraint.a, ← Coordinate.measured constraint.b)
  let x ← Coordinate.measured point.x
  let y ← Coordinate.measured point.y
  let values ← rows.mapM fun row => do
    Scalar.add (← Scalar.mul row.1 x) (← Scalar.mul row.2 y)
  allHold tolerance (constraints.zip values)

end

section

variable [Scalar α]

def isNear (tolerance a b : α) : Except Fault Bool := do
  Scalar.lessEq (← Scalar.abs (← Scalar.sub a b)) tolerance

/-- Whether a point lies within the tolerance of one of a list, in both
coordinates. -/
def isKnown (tolerance : α) (point : Point α) : List (Point α) → Except Fault Bool
  | [] => .ok false
  | known :: rest => do
      if ← isNear tolerance point.x known.x then
        if ← isNear tolerance point.y known.y then return true
      isKnown tolerance point rest

/-- The points that are not near an earlier one that was kept. -/
def distinct (tolerance : α) (points : List (Point α)) : Except Fault (List (Point α)) :=
  points.foldlM (fun kept point => do
    if ← isKnown tolerance point kept then return kept else return kept ++ [point]) []

end

end OptimalPlans.Plane
