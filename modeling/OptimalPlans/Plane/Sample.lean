import OptimalPlans.Plane.Constraint

/-!
# Sampled boundary lines

Points of a boundary line for drawing it.  The samples run from the lower end in
equal steps and reach the upper end within half a step.  A vertical line is sampled
along `y`, and a constraint without coefficients has no line.
-/

namespace OptimalPlans.Plane

structure SampledLine where
  label : String
  points : List (Float × Float)

/-- Equally spaced doubles: the first, the second, and then multiples of their
difference. -/
def spaced (first second : Float) (count : Nat) : List Float :=
  (List.range count).map fun (index : Nat) =>
    if index = 0 then first
    else if index = 1 then second
    else first + Double.ofInt index * (second - first)

def samples (low high step : Number) : Except Fault (List Float) := do
  let stop ← high.add (← step.div (.integer 2))
  let steps ← (← (← stop.sub low).div step).toDouble
  let first ← low.toDouble
  let second ← (← low.add step).toDouble
  return spaced first second ((Double.ceiling steps).getD 0).toNat

def Constraint.sample (constraint : Constraint Number) (low high step : Number) :
    Except Fault SampledLine := do
  let positions ← samples low high step
  let points ←
    if !Scalar.isZero constraint.b then do
      let a ← constraint.a.toDouble
      let b ← constraint.b.toDouble
      let rhs ← constraint.rhs.toDouble
      pure (positions.map fun x => (x, (rhs - a * x) / b))
    else if !Scalar.isZero constraint.a then do
      let x ← (← constraint.rhs.div constraint.a).toDouble
      pure (positions.map fun y => (x, y))
    else pure []
  return { label := constraint.label, points }

/-- The stretch that is drawn unless told otherwise: from zero to twenty. -/
def defaultLow : Number := .double 0

def defaultHigh : Number := .double (Double.ofInt 20)

/-- One half. -/
def defaultStep : Number := .double (Double.ofRatio false 1 2)

end OptimalPlans.Plane
