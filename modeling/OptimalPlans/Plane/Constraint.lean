import OptimalPlans.Plane.Scalar
import OptimalPlans.Value.Basic

/-!
# Linear constraints

A constraint compares `a * x + b * y` with a right-hand side.  Its coefficients are
finite numbers and keep their kind, unless the constraint is read from a record:
then they are doubles, and missing ones are zero.
-/

namespace OptimalPlans.Plane

inductive Relation where
  | atMost
  | atLeast
  | equal
deriving DecidableEq, Repr

namespace Relation

def symbol : Relation → String
  | atMost => "<="
  | atLeast => ">="
  | equal => "="

def ofName? : String → Option Relation
  | "<=" | "≤" => some atMost
  | ">=" | "≥" => some atLeast
  | "=" | "==" => some equal
  | _ => none

def ofValue (value : Value) : Except Fault Relation := do
  match ← value.lookedUp with
  | .text name =>
      match ofName? name with
      | some relation => return relation
      | none => throw (.unknownRelation (Value.text name).quoted)
  | other => throw (.unknownRelation other.quoted)

end Relation

structure Constraint (α : Type) where
  a : α
  b : α
  relation : Relation
  rhs : α

namespace Constraint

def label {α : Type} [Scalar α] (constraint : Constraint α) : String :=
  Scalar.text constraint.a ++ "x + " ++ Scalar.text constraint.b ++ "y " ++
    constraint.relation.symbol ++ " " ++ Scalar.text constraint.rhs

def finiteNumber (value : Value) : Except Fault Number := do
  if ← value.isFiniteNumber then
    match value.number? with
    | some number => return number
    | none => throw .infiniteCoefficient
  else throw .infiniteCoefficient

/-- A constraint from its four parts. -/
def ofParts (a b relation rhs : Value) : Except Fault (Constraint Number) := do
  let relation ← Relation.ofValue relation
  let a ← finiteNumber a
  let b ← finiteNumber b
  let rhs ← finiteNumber rhs
  return { a, b, relation, rhs }

/-- A coefficient of a record, zero when it is missing. -/
def coefficient (coefficients : List Value) (index : Nat) : Except Fault Value := do
  return .double (← ((coefficients[index]?).getD (.integer 0)).toReal)

/-- A constraint from a record with coefficients, a relation and a right-hand
side. -/
def ofValue (value : Value) : Except Fault (Constraint Number) := do
  match value with
  | .record fields =>
      let fields : Fields := fields
      let coefficients ← (fields.getOr "coeffs" (.list [])).elements
      if 2 < coefficients.length then throw .tooManyCoefficients
      let a ← coefficient coefficients 0
      let b ← coefficient coefficients 1
      let rhs ← (fields.getOr "rhs" (.integer 0)).toReal
      ofParts a b (fields.getOr "type" (.text "<=")) (.double rhs)
  | other => throw (.notAConstraint other.quoted)

end Constraint

/-- The two boundaries of the first quadrant. -/
def nonNegativity {α : Type} [Coordinate α] : List (Constraint α) :=
  [{ a := Coordinate.whole 1, b := Coordinate.whole 0,
     relation := .atLeast, rhs := Coordinate.whole 0 },
   { a := Coordinate.whole 0, b := Coordinate.whole 1,
     relation := .atLeast, rhs := Coordinate.whole 0 }]

end OptimalPlans.Plane
