import OptimalPlans.Proofs.Number.Zero
import OptimalPlans.Proofs.Plane.VertexList

/-!
# Programs of doubles

A linear program that is read from values computes with doubles only.  Their arithmetic
never fails, and a divisor is always tested first, so such a program has an outcome and its
boundary lines can be drawn.
-/

namespace OptimalPlans

variable {mayFail : Fault → Prop}

namespace Number

def IsDouble (number : Number) : Prop :=
  ∃ real, number = .double real

@[simp] theorem isDouble_double (real : Float) : (double real).IsDouble := ⟨real, rfl⟩

theorem IsDouble.yields_combine {left right : Number} (leftDouble : left.IsDouble)
    (rightDouble : right.IsDouble) (whole : Int → Int → Int) (real : Float → Float → Float) :
    Yields mayFail IsDouble (combine whole real left right) := by
  obtain ⟨x, rfl⟩ := leftDouble
  obtain ⟨y, rfl⟩ := rightDouble
  exact isDouble_double (real x y)

end Number

namespace Scalar

variable {β : Type}

/-- Sorting by an order that always decides keeps what is known of every value. -/
theorem yields_sortBy {known : β → Prop} {less : β → β → Except Fault Bool}
    (decides : ∀ left right, ∃ answer, less left right = .ok answer) {values : List β}
    (all : ∀ value ∈ values, known value) :
    Yields mayFail (fun sorted => ∀ value ∈ sorted, known value) (sortBy less values) := by
  choose below agrees using decides
  obtain ⟨sorted, result, permutation⟩ := sortBy_eq_ok agrees values
  exact Yields.of_eq_ok result fun value member => all value (permutation.mem_iff.mp member)

end Scalar

namespace Plane

open Number (IsDouble)

/-! ## Constraints and points of doubles -/

structure Constraint.IsDouble (constraint : Constraint Number) : Prop where
  a : constraint.a.IsDouble
  b : constraint.b.IsDouble
  rhs : constraint.rhs.IsDouble

structure Point.IsDouble (point : Point Number) : Prop where
  x : point.x.IsDouble
  y : point.y.IsDouble

/-- A program all of whose coefficients, bounds and goals are doubles. -/
structure Program.IsDouble (program : Program Number) : Prop where
  objective : ∀ goal ∈ program.objective, goal.IsDouble
  constraints : ∀ constraint ∈ program.constraints, constraint.IsDouble

theorem isDouble_nonNegativity :
    ∀ constraint ∈ (nonNegativity : List (Constraint Number)), constraint.IsDouble := by
  intro constraint member
  simp only [nonNegativity, List.mem_cons, List.not_mem_nil, or_false] at member
  rcases member with rfl | rfl <;> exact ⟨⟨_, rfl⟩, ⟨_, rfl⟩, ⟨_, rfl⟩⟩

/-! ## Vertices -/

theorem yields_determinant {a b c d : Number} (first : a.IsDouble) (second : b.IsDouble)
    (third : c.IsDouble) (fourth : d.IsDouble) :
    Yields mayFail IsDouble (determinant a b c d) := by
  refine (first.yields_combine fourth _ _).bind fun main mainDouble => ?_
  refine (second.yields_combine third _ _).bind fun side sideDouble => ?_
  exact mainDouble.yields_combine sideDouble _ _

/-- Two lines are only intersected where their determinant is away from zero. -/
theorem yields_intersection {first second : Constraint Number} (firstDouble : first.IsDouble)
    (secondDouble : second.IsDouble) :
    Yields mayFail (fun found => ∀ point ∈ found, Point.IsDouble point)
      (intersection first second defaultTolerance) := by
  refine (yields_determinant firstDouble.a firstDouble.b secondDouble.a secondDouble.b).bind ?_
  rintro _ ⟨slope, rfl⟩
  have measured : Scalar.abs (Number.double slope) = .ok (Number.double slope).abs := rfl
  rw [measured, ok_bind]
  cases parallel : (Number.double slope).abs.less defaultTolerance with
  | true => simp [Scalar.less, parallel]
  | false =>
      have nonzero := Number.beq_zero_of_abs_less parallel
      have divides : ∀ x : Float, Coordinate.div (Number.double x) (Number.double slope) =
          .ok (Number.double (x / slope)) := fun x => Number.div_double x nonzero
      simp only [Scalar.less, parallel, ok_bind, Bool.false_eq_true, if_false]
      refine (yields_determinant firstDouble.rhs firstDouble.b secondDouble.rhs
        secondDouble.b).bind ?_
      rintro _ ⟨across, rfl⟩
      rw [divides, ok_bind]
      refine (yields_determinant firstDouble.a firstDouble.rhs secondDouble.a
        secondDouble.rhs).bind ?_
      rintro _ ⟨along, rfl⟩
      rw [divides, ok_bind]
      rintro _ ⟨rfl⟩
      exact ⟨⟨_, rfl⟩, ⟨_, rfl⟩⟩

theorem yields_intersections {constraints : List (Constraint Number)}
    (double : ∀ constraint ∈ constraints, constraint.IsDouble) :
    Yields mayFail (fun points => ∀ point ∈ points, Point.IsDouble point)
      (intersections constraints defaultTolerance) := by
  refine (Yields.mapM fun pair member => yields_intersection
    (double _ (mem_of_mem_pairs member).1) (double _ (mem_of_mem_pairs member).2)).bind ?_
  rintro found ⟨_, each⟩ point member
  obtain ⟨candidate, listed, same⟩ := List.mem_filterMap.mp member
  exact each candidate listed point same

theorem yields_holdsAt {constraint : Constraint Number} (double : constraint.IsDouble)
    {value : Number} (valueDouble : value.IsDouble) :
    Yields mayFail (fun _ => True) (constraint.holdsAt value defaultTolerance) := by
  obtain ⟨_, rfl⟩ := valueDouble
  obtain ⟨bound, bounded⟩ := double.rhs
  unfold Constraint.holdsAt
  rw [bounded]
  cases constraint.relation <;> trivial

theorem yields_allHold {measured : List (Constraint Number × Number)}
    (double : ∀ entry ∈ measured, entry.1.IsDouble ∧ entry.2.IsDouble) :
    Yields mayFail (fun _ => True) (allHold defaultTolerance measured) := by
  induction measured with
  | nil => trivial
  | cons entry later induction =>
      obtain ⟨constraintDouble, valueDouble⟩ := double entry (by simp)
      rw [allHold]
      refine (yields_holdsAt constraintDouble valueDouble).bind fun holds _ => ?_
      cases holds with
      | true => exact induction fun other member => double other (by simp [member])
      | false => trivial

theorem yields_measured {number : Number} (double : number.IsDouble) :
    Yields mayFail IsDouble (Coordinate.measured number) := by
  obtain ⟨real, rfl⟩ := double
  exact ⟨real, rfl⟩

theorem yields_isFeasible {constraints : List (Constraint Number)}
    (double : ∀ constraint ∈ constraints, constraint.IsDouble) {point : Point Number}
    (pointDouble : point.IsDouble) :
    Yields mayFail (fun _ => True) (isFeasible constraints defaultTolerance point) := by
  have row : ∀ constraint ∈ constraints,
      Yields mayFail (fun row : Number × Number => row.1.IsDouble ∧ row.2.IsDouble) (do
        return (← Coordinate.measured constraint.a, ← Coordinate.measured constraint.b)) := by
    intro constraint member
    refine (yields_measured (double constraint member).a).bind fun a aDouble => ?_
    exact (yields_measured (double constraint member).b).bind fun b bDouble => ⟨aDouble, bDouble⟩
  refine (Yields.mapM row).bind fun rows rowsDouble => ?_
  refine (yields_measured pointDouble.x).bind fun x xDouble => ?_
  refine (yields_measured pointDouble.y).bind fun y yDouble => ?_
  have value : ∀ row ∈ rows, Yields mayFail IsDouble (do
      Scalar.add (← Scalar.mul row.1 x) (← Scalar.mul row.2 y)) := by
    intro row member
    obtain ⟨aDouble, bDouble⟩ := rowsDouble.2 row member
    refine (aDouble.yields_combine xDouble _ _).bind fun across acrossDouble => ?_
    refine (bDouble.yields_combine yDouble _ _).bind fun along alongDouble => ?_
    exact acrossDouble.yields_combine alongDouble _ _
  refine (Yields.mapM value).bind fun values valuesDouble => ?_
  refine yields_allHold fun entry member => ?_
  obtain ⟨constraintMember, valueMember⟩ := List.of_mem_zip member
  exact ⟨double _ constraintMember, valuesDouble.2 _ valueMember⟩

theorem yields_isNear {a b : Number} (first : a.IsDouble) (second : b.IsDouble)
    (tolerance : Number) : Yields mayFail (fun _ => True) (isNear tolerance a b) := by
  obtain ⟨_, rfl⟩ := first
  obtain ⟨_, rfl⟩ := second
  trivial

theorem yields_isKnown {point : Point Number} (double : point.IsDouble)
    {known : List (Point Number)} (knownDouble : ∀ other ∈ known, other.IsDouble)
    (tolerance : Number) : Yields mayFail (fun _ => True) (isKnown tolerance point known) := by
  induction known with
  | nil => trivial
  | cons other known induction =>
      have otherDouble := knownDouble other (by simp)
      have later := induction fun another member => knownDouble another (by simp [member])
      rw [isKnown]
      refine (yields_isNear double.x otherDouble.x tolerance).bind fun nearX _ => ?_
      cases nearX with
      | false => exact later
      | true =>
          refine (yields_isNear double.y otherDouble.y tolerance).bind fun nearY _ => ?_
          cases nearY with
          | false => exact later
          | true => trivial

theorem yields_feasibleVertices {constraints : List (Constraint Number)}
    (double : ∀ constraint ∈ constraints, constraint.IsDouble) {points : List (Point Number)}
    (pointsDouble : ∀ point ∈ points, point.IsDouble) :
    Yields mayFail (fun kept => ∀ point ∈ kept, Point.IsDouble point)
      (feasibleVertices constraints defaultTolerance points) := by
  refine (Yields.filterBy fun point member =>
    yields_isFeasible double (pointsDouble point member)).bind fun feasible subset => ?_
  refine Yields.foldlM (by simp) fun point member kept keptDouble => ?_
  have pointDouble := pointsDouble point (subset member)
  refine (yields_isKnown pointDouble keptDouble defaultTolerance).bind fun near _ => ?_
  cases near with
  | true => exact keptDouble
  | false =>
      exact List.forall_mem_append.mpr ⟨keptDouble, List.forall_mem_singleton.mpr pointDouble⟩

theorem yields_evaluate {objective : List Number} (double : ∀ goal ∈ objective, goal.IsDouble)
    {point : Point Number} (pointDouble : point.IsDouble) :
    Yields mayFail (fun _ => True) (evaluate objective point) := by
  have goal : ∀ index : Nat, ((objective[index]?).getD (Coordinate.whole 0)).IsDouble := by
    intro index
    cases found : objective[index]? with
    | none => exact ⟨_, rfl⟩
    | some goal => exact double goal (List.mem_of_getElem? found)
  refine ((goal 0).yields_combine pointDouble.x _ _).bind fun across acrossDouble => ?_
  refine ((goal 1).yields_combine pointDouble.y _ _).bind fun along alongDouble => ?_
  exact (acrossDouble.yields_combine alongDouble _ _).bind fun _ _ => trivial

/-! ## Hulls -/

theorem yields_turn {origin via target : Point Number} (originDouble : origin.IsDouble)
    (viaDouble : via.IsDouble) (targetDouble : target.IsDouble) :
    Yields mayFail IsDouble (turn origin via target) := by
  obtain ⟨⟨_, originX⟩, ⟨_, originY⟩⟩ := originDouble
  obtain ⟨⟨_, viaX⟩, ⟨_, viaY⟩⟩ := viaDouble
  obtain ⟨⟨_, targetX⟩, ⟨_, targetY⟩⟩ := targetDouble
  unfold turn
  rw [originX, originY, viaX, viaY, targetX, targetY]
  exact ⟨_, rfl⟩

theorem yields_dropTurns {point : Point Number} (double : point.IsDouble)
    {done : List (Point Number)} (doneDouble : ∀ other ∈ done, other.IsDouble) :
    Yields mayFail (fun kept => ∀ other ∈ kept, Point.IsDouble other) (dropTurns point done) := by
  induction done with
  | nil => exact doneDouble
  | cons top rest induction =>
      cases rest with
      | nil => exact doneDouble
      | cons below rest =>
          have restDouble := fun other member => doneDouble other (List.mem_cons_of_mem top member)
          rw [dropTurns]
          refine (yields_turn (restDouble below (by simp)) (doneDouble top (by simp))
            double).bind fun amount _ => ?_
          cases drops : amount.lessEq (.integer 0) with
          | true => simpa [Scalar.lessEq, Scalar.ofInt, drops] using induction restDouble
          | false => simpa [Scalar.lessEq, Scalar.ofInt, drops] using doneDouble

theorem yields_chain {points : List (Point Number)}
    (double : ∀ point ∈ points, point.IsDouble) :
    Yields mayFail (fun _ => True) (chain points) := by
  have kept : Yields mayFail (fun kept => ∀ point ∈ kept, Point.IsDouble point)
      (chain points) := by
    refine Yields.foldlM (by simp) fun point member done doneDouble => ?_
    refine (yields_dropTurns (double point member) doneDouble).bind fun rest restDouble => ?_
    exact List.forall_mem_cons.mpr ⟨double point member, restDouble⟩
  exact kept.mono fun _ _ => trivial

theorem precedes_decides (left right : Point Number) :
    ∃ answer, Point.precedes left right = .ok answer := by
  unfold Point.precedes
  split
  · exact ⟨_, Scalar.precedes_number left.y right.y⟩
  · exact ⟨_, rfl⟩

theorem yields_convexHull {points : List (Point Number)}
    (double : ∀ point ∈ points, point.IsDouble) :
    Yields mayFail (fun _ => True) (convexHull points) := by
  unfold convexHull
  split
  · trivial
  · refine (Scalar.yields_sortBy precedes_decides double).bind fun ordered orderedDouble => ?_
    refine (yields_chain orderedDouble).bind fun lower _ => ?_
    have reversed := fun point member => orderedDouble point (List.mem_reverse.mp member)
    exact (yields_chain reversed).bind fun upper _ => trivial

/-! ## Outcomes -/

/-- A program of doubles has an outcome, and the constraints of a solution are doubles. -/
theorem Program.IsDouble.yields_solve {program : Program Number} (double : program.IsDouble) :
    Yields mayFail (fun outcome => ∀ solution, outcome = .solved solution →
        ∀ constraint ∈ solution.constraints, Constraint.IsDouble constraint)
      (solve program defaultTolerance).result := by
  have all := List.forall_mem_append.mpr ⟨double.constraints, isDouble_nonNegativity⟩
  unfold solve
  split
  · simp
  simp only [Journal.result_bind, Journal.result_monadLift, Journal.result_note]
  refine (yields_intersections all).bind fun points pointsDouble => ?_
  refine (yields_feasibleVertices all pointsDouble).bind fun feasible feasibleDouble => ?_
  rw [ok_bind]
  refine (Yields.mapM fun point member => yields_evaluate double.objective
    (feasibleDouble point member)).bind fun vertices _ => ?_
  cases vertices with
  | nil => simp
  | cons first rest =>
      have decides : ∀ candidate best : Evaluated Number, ∃ answer,
          (if program.maximize then Scalar.greater candidate.value best.value
            else Scalar.less candidate.value best.value) = .ok answer := by
        intro candidate best
        split <;> exact ⟨_, rfl⟩
      obtain ⟨chosen, _, picked⟩ := Scalar.pick_eq_ok fun left (_ : left ∈ first :: rest) right
        (_ : right ∈ first :: rest) => decides left right
      simp only [best, picked, Journal.result_bind, Journal.result_monadLift,
        Journal.result_note, ok_bind]
      refine (yields_convexHull feasibleDouble).bind fun region _ => ?_
      rintro _ ⟨rfl⟩
      exact all

/-! ## Drawing -/

/-- The stretch that is drawn has its samples. -/
theorem samples_eq_ok :
    ∃ positions, samples defaultLow defaultHigh defaultStep = .ok positions := ⟨_, rfl⟩

/-- A line is sampled along a coordinate whose coefficient is not zero. -/
theorem Constraint.IsDouble.yields_sample {constraint : Constraint Number}
    (double : constraint.IsDouble) :
    Yields mayFail (fun _ => True)
      (constraint.sample defaultLow defaultHigh defaultStep) := by
  obtain ⟨positions, sampled⟩ := samples_eq_ok
  obtain ⟨⟨a, ofX⟩, ⟨b, ofY⟩, ⟨rhs, bound⟩⟩ := double
  have rounded : ∀ real : Float, (Number.double real).toDouble = .ok real := fun _ => rfl
  unfold Constraint.sample
  rw [sampled, ok_bind, ofX, ofY, bound]
  cases flat : Scalar.isZero (Number.double b) with
  | false => simp [rounded]
  | true =>
      cases none : Scalar.isZero (Number.double a) with
      | true => simp
      | false =>
          simp [Number.div_double rhs (Number.beq_zero_of_isZero none), rounded]

theorem yields_lines {solution : Solution Number}
    (double : ∀ constraint ∈ solution.constraints, constraint.IsDouble) :
    Yields mayFail (fun _ => True) solution.lines :=
  (Yields.mapM fun constraint member => (double constraint member).yields_sample).mono
    fun _ _ => trivial

end Plane

end OptimalPlans
