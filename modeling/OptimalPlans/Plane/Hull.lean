import OptimalPlans.Plane.Vertex

/-!
# Convex hulls

The monotone chain: points are scanned from left to right for the lower chain and
back for the upper one, and a chain drops its last point as long as it makes no
left turn.  The hull runs counter-clockwise from the leftmost point.
-/

namespace OptimalPlans.Plane

variable {α : Type} [Scalar α]

/-- Positive for a left turn from `origin` over `via` to `target`. -/
def turn (origin via target : Point α) : Except Fault α := do
  let main ← Scalar.mul (← Scalar.sub via.x origin.x) (← Scalar.sub target.y origin.y)
  let side ← Scalar.mul (← Scalar.sub via.y origin.y) (← Scalar.sub target.x origin.x)
  Scalar.sub main side

/-- The order of points by `x`, and by `y` among equals. -/
def Point.precedes (left right : Point α) : Except Fault Bool :=
  if Scalar.same left.x right.x then Scalar.precedes left.y right.y
  else Scalar.less left.x right.x

/-- Drops the points at the top of a chain that make no left turn toward a new
point. -/
def dropTurns (point : Point α) : List (Point α) → Except Fault (List (Point α))
  | top :: below :: rest => do
      if ← Scalar.lessEq (← turn below top point) (Scalar.ofInt 0) then
        dropTurns point (below :: rest)
      else
        return top :: below :: rest
  | chain => .ok chain

/-- The chain over a list of points, its last point on top. -/
def chain (points : List (Point α)) : Except Fault (List (Point α)) :=
  points.foldlM (fun done point => do return point :: (← dropTurns point done)) []

def convexHull (points : List (Point α)) : Except Fault (List (Point α)) := do
  if points.length ≤ 1 then
    return points
  else
    let ordered ← Scalar.sortBy Point.precedes points
    let lower ← chain ordered
    let upper ← chain ordered.reverse
    return lower.tail.reverse ++ upper.tail.reverse

end OptimalPlans.Plane
