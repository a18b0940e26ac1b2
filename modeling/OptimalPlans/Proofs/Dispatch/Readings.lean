import OptimalPlans.Dispatch.Operation
import OptimalPlans.Proofs.Plane.RealPrograms
import OptimalPlans.Proofs.Transport.Acceptance

/-!
# Readings of values

A value that is not what a reading asks for is malformed input.  Three readings meet other
faults: an integer may be too large for a double, an infinite double has no integer part,
and a record has no element at its start.
-/

namespace OptimalPlans

variable {mayFail : Fault → Prop}

/-! ## Values -/

namespace Value

section

variable (malformed : ∀ fault, fault.isMalformedInput = true → mayFail fault)

include malformed

theorem yields_length (value : Value) : Yields mayFail (fun _ => True) value.length := by
  cases value with
  | text | list | record => trivial
  | null | truth | number => exact malformed _ rfl

theorem yields_elements (value : Value) : Yields mayFail (fun _ => True) value.elements := by
  cases value with
  | text | list | record => trivial
  | null | truth | number => exact malformed _ rfl

/-- A value that is not empty has an element at its start, unless it is a record. -/
theorem yields_first {value : Value} {count : Nat} (counted : value.length = .ok count)
    (some : count ≠ 0)
    (keyed : ∀ field fields, value = .record (field :: fields) → mayFail (.absentKey "0")) :
    Yields mayFail (fun _ => True) value.first := by
  cases value with
  | text characters =>
      obtain rfl := Except.ok.inj counted
      rw [first]
      split
      next empty =>
          rw [← String.length_toList, empty] at some
          exact absurd rfl some
      next => trivial
  | list items =>
      cases items with
      | nil => exact absurd (Except.ok.inj counted).symm some
      | cons => trivial
  | record fields =>
      cases fields with
      | nil => exact absurd (Except.ok.inj counted).symm some
      | cons field fields => exact keyed field fields rfl
  | null | truth | number => exact malformed _ rfl

theorem yields_lookedUp (value : Value) : Yields mayFail (fun _ => True) value.lookedUp := by
  cases value with
  | list | record => exact malformed _ rfl
  | null | truth | number | text => trivial

theorem yields_toCount (value : Value) : Yields mayFail (fun _ => True) value.toCount := by
  cases value with
  | truth => trivial
  | number value =>
      cases value with
      | integer => trivial
      | double => exact malformed _ rfl
  | null | text | list | record => exact malformed _ rfl

theorem yields_toSigned (value : Value) : Yields mayFail (fun _ => True) value.toSigned := by
  cases value with
  | truth | number => trivial
  | null | text | list | record => exact malformed _ rfl

/-- Only an infinite double is a number without an integer part. -/
theorem yields_toInteger {value : Value}
    (infinite : value.toInteger = .error .infinityToInteger → mayFail .infinityToInteger) :
    Yields mayFail (fun _ => True) value.toInteger := by
  cases value with
  | truth => trivial
  | number value =>
      cases value with
      | integer => trivial
      | double real =>
          simp only [toInteger, Number.truncate] at infinite ⊢
          split
          next => trivial
          next none =>
              rw [none] at infinite
              cases nan : Double.isNaN real with
              | true => exact malformed _ rfl
              | false => exact infinite (by simp [nan])
  | text numeral =>
      simp only [toInteger, Numeral.integer]
      split
      · exact malformed _ rfl
      · exact Yields.refusing (malformed _ rfl) fun _ => trivial
      · exact malformed _ rfl
  | null | list | record => exact malformed _ rfl

theorem yields_toReal (overflow : mayFail .integerTooLarge) (value : Value) :
    Yields mayFail (fun _ => True) value.toReal := by
  cases value with
  | truth => trivial
  | number value => exact Number.yields_toDouble overflow value
  | text numeral =>
      rw [toReal, Numeral.real]
      split
      · trivial
      · exact malformed _ rfl
  | null | list | record => exact malformed _ rfl

end

theorem yields_isFiniteNumber (overflow : mayFail .integerTooLarge) (value : Value) :
    Yields mayFail (fun _ => True) value.isFiniteNumber := by
  cases value with
  | number value =>
      cases value with
      | double => trivial
      | integer value =>
          rw [isFiniteNumber, Number.isFinite]
          split
          · trivial
          · exact overflow
  | null | truth | text | list | record => trivial

end Value

/-! ## Transportation problems -/

namespace Transport

variable (malformed : ∀ fault, fault.isMalformedInput = true → mayFail fault)
  (overflow : mayFail .integerTooLarge)

theorem yields_finiteNumber? (overflow : mayFail .integerTooLarge) (value : Value) :
    Yields mayFail (fun _ => True) (finiteNumber? value) := by
  refine (value.yields_isFiniteNumber overflow).bind fun finite _ => ?_
  cases finite <;> trivial

include malformed overflow

theorem yields_costRow (name : String) (cols : Nat) (row : Value) :
    Yields mayFail (fun _ => True) (costRow name cols row) := by
  simp only [costRow, throw_eq_error, error_bind]
  refine (row.yields_length malformed).bind fun count _ => ?_
  refine Yields.refusing (malformed _ rfl) fun _ => ?_
  refine (row.yields_elements malformed).bind fun units _ => ?_
  refine (Yields.mapM fun unit _ => (?_ : Yields mayFail (fun _ => True) _)).mono fun _ _ => trivial
  refine (yields_finiteNumber? overflow unit).bind fun number _ => ?_
  cases number with
  | none => exact malformed _ rfl
  | some => trivial

/-- A cost matrix is read or malformed, unless it is a record. -/
theorem yields_costMatrix (name : String) {value : Value}
    (keyed : ∀ field fields, value = .record (field :: fields) → mayFail (.absentKey "0")) :
    Yields mayFail (fun _ => True) (costMatrix name value) := by
  simp only [costMatrix, throw_eq_error, error_bind]
  refine Yields.refusing (malformed _ rfl) fun _ => ?_
  cases counted : value.length with
  | error fault => exact (value.yields_length malformed).mayFail_of_eq_error counted
  | ok count =>
      refine Yields.refusing (malformed _ rfl) fun some => ?_
      refine (value.yields_first malformed counted some keyed).bind fun first _ => ?_
      refine (first.yields_length malformed).bind fun cols _ => ?_
      refine Yields.refusing (malformed _ rfl) fun _ => ?_
      refine (value.yields_elements malformed).bind fun rows _ => ?_
      exact (Yields.mapM fun row _ => yields_costRow malformed overflow name cols row).bind
        fun _ _ => trivial

theorem yields_quantities (name : String) (expected : Nat) (value : Value) :
    Yields mayFail (fun _ => True) (quantities name expected value) := by
  simp only [quantities, throw_eq_error, error_bind]
  refine Yields.refusing (malformed _ rfl) fun _ => ?_
  refine (value.yields_length malformed).bind fun count _ => ?_
  refine Yields.refusing (malformed _ rfl) fun _ => ?_
  refine Yields.refusing (malformed _ rfl) fun _ => ?_
  refine (value.yields_elements malformed).bind fun items _ => ?_
  refine (Yields.mapM fun item _ => (?_ : Yields mayFail (fun _ => True) _)).mono fun _ _ => trivial
  refine (yields_finiteNumber? overflow item).bind fun number _ => ?_
  cases number with
  | none => exact malformed _ rfl
  | some number => exact Yields.refusing (malformed _ rfl) fun _ => trivial

/-- A problem is accepted or malformed, unless its costs are a record or a number does not
fit. -/
theorem yields_validate {cost : Value} (supply demand : Value)
    (keyed : ∀ field fields, cost = .record (field :: fields) → mayFail (.absentKey "0")) :
    Yields mayFail Problem.Accepted (validate cost supply demand).result := by
  have totals : ∀ values : List Number, Yields mayFail (fun _ => True) (Scalar.sum values) :=
    fun values => Yields.foldlM trivial fun value _ total _ =>
      Number.yields_combine overflow _ _ total value
  have read : Yields mayFail (fun _ => True) (readProblem cost supply demand) := by
    simp only [readProblem, throw_eq_error, error_bind]
    refine Yields.refusing (malformed _ rfl) fun _ => ?_
    refine (yields_costMatrix malformed overflow _ keyed).bind fun table _ => ?_
    refine (yields_quantities malformed overflow _ _ supply).bind fun _ _ => ?_
    exact (yields_quantities malformed overflow _ _ demand).bind fun _ _ => trivial
  have validated : Yields mayFail (fun _ => True) (validate cost supply demand).result := by
    simp only [validate, Journal.result_bind, Journal.result_monadLift]
    refine read.bind fun problem _ => ?_
    refine (totals problem.supply).bind fun supplied _ => ?_
    refine (totals problem.demand).bind fun demanded _ => ?_
    split <;> trivial
  cases result : (validate cost supply demand).result with
  | error fault => exact validated.mayFail_of_eq_error result
  | ok problem => exact validate_accepts result

end Transport

/-! ## Linear programs -/

namespace Plane

variable (malformed : ∀ fault, fault.isMalformedInput = true → mayFail fault)

include malformed

theorem Relation.yields_ofValue (value : Value) :
    Yields mayFail (fun _ => True) (Relation.ofValue value) := by
  refine (value.yields_lookedUp malformed).bind fun looked _ => ?_
  split
  · split
    · trivial
    · exact malformed _ rfl
  · exact malformed _ rfl

namespace Constraint

theorem yields_finiteNumber_double (real : Float) :
    Yields mayFail Number.IsDouble (finiteNumber (.double real)) := by
  have read : finiteNumber (.double real) =
      if Double.isFinite real then .ok (.double real) else .error .infiniteCoefficient := rfl
  rw [read]
  split
  · exact ⟨real, rfl⟩
  · exact malformed _ rfl

theorem yields_coefficient (overflow : mayFail .integerTooLarge) (coefficients : List Value)
    (index : Nat) :
    Yields mayFail (fun value => ∃ real, value = .double real)
      (coefficient coefficients index) :=
  (Value.yields_toReal malformed overflow _).bind fun real _ => ⟨real, rfl⟩

/-- The constraint of a record has doubles. -/
theorem yields_ofValue (overflow : mayFail .integerTooLarge) (value : Value) :
    Yields mayFail Constraint.IsDouble (ofValue value) := by
  cases value with
  | record fields =>
      simp only [ofValue, throw_eq_error, error_bind]
      refine (Value.yields_elements malformed _).bind fun coefficients _ => ?_
      refine Yields.refusing (malformed _ rfl) fun _ => ?_
      refine (yields_coefficient malformed overflow coefficients 0).bind ?_
      rintro _ ⟨a, rfl⟩
      refine (yields_coefficient malformed overflow coefficients 1).bind ?_
      rintro _ ⟨b, rfl⟩
      refine (Value.yields_toReal malformed overflow _).bind fun rhs _ => ?_
      refine (Relation.yields_ofValue malformed _).bind fun relation _ => ?_
      refine (yields_finiteNumber_double malformed a).bind fun first firstDouble => ?_
      refine (yields_finiteNumber_double malformed b).bind fun second secondDouble => ?_
      refine (yields_finiteNumber_double malformed rhs).bind fun bound boundDouble => ?_
      exact ⟨firstDouble, secondDouble, boundDouble⟩
  | null | truth | number | text | list => exact malformed _ rfl

end Constraint

/-- A program is read with doubles or malformed, unless an integer is too large or the
number of its unknowns is infinite. -/
theorem yields_readProgram (overflow : mayFail .integerTooLarge)
    {unknowns : Value} (infinite : unknowns.toInteger = .error .infinityToInteger →
      mayFail .infinityToInteger) (objective maximize constraints : Value) :
    Yields mayFail Program.IsDouble
      (Dispatch.readProgram unknowns objective maximize constraints) := by
  have finishes : ∀ (coefficients : List Float) (values : List Value),
      Yields mayFail Program.IsDouble (do
        let constraints ← values.mapM Constraint.ofValue
        let unknowns ← unknowns.toInteger
        return { unknowns := .integer unknowns, objective := coefficients.map .double,
                 maximize := maximize.isTruthy, constraints }) := by
    intro coefficients values
    refine (Yields.mapM fun value _ => Constraint.yields_ofValue malformed overflow value).bind
      fun read double => ?_
    refine (Value.yields_toInteger malformed infinite).bind fun count _ => ?_
    exact ⟨by simp [Number.IsDouble], double.2⟩
  simp only [Dispatch.readProgram, throw_eq_error, error_bind]
  refine (objective.yields_elements malformed).bind fun goals _ => ?_
  refine (Yields.mapM fun goal _ => Value.yields_toReal malformed overflow goal).bind
    fun coefficients _ => ?_
  refine Yields.refusing (malformed _ rfl) fun _ => ?_
  split
  · exact (constraints.yields_elements malformed).bind fun values _ =>
      finishes coefficients values
  · exact finishes coefficients []

end Plane

/-! ## Activities -/

namespace Precedence.Activity

variable (malformed : ∀ fault, fault.isMalformedInput = true → mayFail fault)

include malformed

theorem yields_declare (name : Value) (predecessors : List Value) :
    Yields mayFail (fun _ => True) (declare name predecessors) := by
  cases name with
  | text name => exact Yields.refusing (malformed _ rfl) fun _ => trivial
  | null | truth | number | list | record => exact malformed _ rfl

theorem yields_predecessorValues (value : Value) :
    Yields mayFail (fun _ => True) (predecessorValues value) := by
  unfold predecessorValues
  split
  · trivial
  · split
    · trivial
    · exact value.yields_elements malformed

/-- An activity is read or malformed. -/
theorem yields_ofValue (value : Value) : Yields mayFail (fun _ => True) (ofValue value) := by
  cases value with
  | record fields =>
      refine (yields_predecessorValues malformed _).bind fun predecessors _ => ?_
      exact yields_declare malformed _ predecessors
  | null | truth | number | text | list => exact malformed _ rfl

end Precedence.Activity

end OptimalPlans
