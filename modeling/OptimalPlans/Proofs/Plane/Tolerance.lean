import OptimalPlans.Plane.Solution
import OptimalPlans.Proofs.Exactness
import OptimalPlans.Proofs.Plane.Region

/-!
# What a tolerance lets through

With exact coordinates every step of the enumeration always succeeds.  It finds the points
in which two boundary lines cross, except for those that the tolerance takes for parallel
ones, lets a point pass that violates no constraint by more than the tolerance, and keeps a
point unless it is near one that was kept before.
-/

namespace OptimalPlans.Plane

/-! ## Exact coordinates -/

section Exact

variable (a b : Rat)

@[simp] theorem measured_rat : Coordinate.measured a = .ok a := rfl
@[simp] theorem whole_rat (n : Int) : (Coordinate.whole n : Rat) = n := rfl

theorem div_rat (nonzero : b ≠ 0) : Coordinate.div a b = .ok (a / b) :=
  if_neg nonzero

end Exact

section Tolerated

variable {tolerance : Rat}

/-! ## Meeting points -/

theorem det_swap (first second : Constraint Rat) : second.det first = -first.det second := by
  simp only [Constraint.det]
  ring

theorem crossing_swap (first second : Constraint Rat) :
    crossing second first = crossing first second := by
  simp only [crossing, det_swap first second, Point.mk.injEq]
  constructor
  · rw [div_neg, ← neg_div]
    ring
  · rw [div_neg, ← neg_div]
    ring

/-- The point in which two boundary lines cross, unless the tolerance takes them for
parallel ones. -/
def meeting? (tolerance : Rat) (first second : Constraint Rat) : Option (Point Rat) :=
  if |first.det second| < tolerance then none else some (crossing first second)

/-- The points in which the boundary lines cross as far as the tolerance tells. -/
def meetings (tolerance : Rat) (constraints : List (Constraint Rat)) : List (Point Rat) :=
  (pairs constraints).filterMap fun pair => meeting? tolerance pair.1 pair.2

theorem meeting?_swap (first second : Constraint Rat) :
    meeting? tolerance second first = meeting? tolerance first second := by
  rw [meeting?, meeting?, det_swap first second, abs_neg, crossing_swap]

theorem determinant_rat (a b c d : Rat) : determinant a b c d = .ok (a * d - b * c) := rfl

theorem intersection_eq_meeting? (positive : 0 < tolerance) (first second : Constraint Rat) :
    intersection first second tolerance = .ok (meeting? tolerance first second) := by
  have slope : first.a * second.b - first.b * second.a = first.det second := rfl
  unfold intersection meeting?
  simp only [determinant_rat, ok_bind, Scalar.abs_rat, Scalar.less_rat, slope]
  by_cases close : |first.det second| < tolerance
  · simp [close]
  · have crosses : first.det second ≠ 0 := by
      intro parallel
      rw [parallel, abs_zero] at close
      exact close positive
    simp only [close, decide_false, Bool.false_eq_true, if_false]
    rw [div_rat _ _ crosses, ok_bind, div_rat _ _ crosses, ok_bind]
    rfl

theorem intersections_eq_meetings (positive : 0 < tolerance)
    (constraints : List (Constraint Rat)) :
    intersections constraints tolerance = .ok (meetings tolerance constraints) := by
  have each : ∀ pair ∈ pairs constraints, intersection pair.1 pair.2 tolerance =
      .ok (meeting? tolerance pair.1 pair.2) := fun pair _ =>
    intersection_eq_meeting? positive pair.1 pair.2
  rw [intersections, mapM_eq_ok each, ok_bind, List.filterMap_map]
  rfl

/-- Two boundary lines meet in their common point if the tolerance tells them apart. -/
theorem meeting?_eq_some_iff (positive : 0 < tolerance) {first second : Constraint Rat}
    {point : Point Rat} :
    meeting? tolerance first second = some point ↔
      tolerance ≤ |first.det second| ∧ first.OnBoundary point ∧ second.OnBoundary point := by
  rw [meeting?, ← not_lt]
  by_cases close : |first.det second| < tolerance
  · simp [close]
  · have crosses : first.det second ≠ 0 := by
      intro parallel
      rw [parallel, abs_zero] at close
      exact close positive
    obtain ⟨onFirst, onSecond⟩ := onBoundary_crossing crosses
    rw [if_neg close, Option.some.injEq]
    constructor
    · rintro rfl
      exact ⟨close, onFirst, onSecond⟩
    · rintro ⟨_, first, second⟩
      exact crossing_unique crosses onFirst onSecond first second

theorem mem_of_mem_pairs {β : Type} {values : List β} {first second : β}
    (listed : (first, second) ∈ pairs values) : first ∈ values ∧ second ∈ values := by
  induction values with
  | nil => cases listed
  | cons value rest induction =>
      rcases List.mem_append.mp listed with here | later
      · obtain ⟨other, member, same⟩ := List.mem_map.mp here
        obtain ⟨rfl, rfl⟩ := Prod.mk.inj same
        exact ⟨List.mem_cons_self, List.mem_cons_of_mem _ member⟩
      · obtain ⟨left, right⟩ := induction later
        exact ⟨List.mem_cons_of_mem _ left, List.mem_cons_of_mem _ right⟩

theorem mem_pairs_of_ne {β : Type} {values : List β} {first second : β}
    (firstMember : first ∈ values) (secondMember : second ∈ values)
    (apart : first ≠ second) :
    (first, second) ∈ pairs values ∨ (second, first) ∈ pairs values := by
  induction values with
  | nil => cases firstMember
  | cons value rest induction =>
      have here : ∀ other ∈ rest, (value, other) ∈ pairs (value :: rest) :=
        fun other member => List.mem_append_left _ (List.mem_map_of_mem member)
      rcases List.mem_cons.mp firstMember with rfl | firstRest
      · rcases List.mem_cons.mp secondMember with rfl | secondRest
        · exact absurd rfl apart
        · exact .inl (here second secondRest)
      · rcases List.mem_cons.mp secondMember with rfl | secondRest
        · exact .inr (here first firstRest)
        · exact (induction firstRest secondRest).imp (List.mem_append_right _)
            (List.mem_append_right _)

theorem mem_meetings_iff (positive : 0 < tolerance) {constraints : List (Constraint Rat)}
    {point : Point Rat} :
    point ∈ meetings tolerance constraints ↔
      ∃ first ∈ constraints, ∃ second ∈ constraints, tolerance ≤ |first.det second| ∧
        first.OnBoundary point ∧ second.OnBoundary point := by
  rw [meetings, List.mem_filterMap]
  constructor
  · rintro ⟨⟨first, second⟩, member, met⟩
    obtain ⟨firstMember, secondMember⟩ := mem_of_mem_pairs member
    exact ⟨first, firstMember, second, secondMember, (meeting?_eq_some_iff positive).mp met⟩
  · rintro ⟨first, firstMember, second, secondMember, meets⟩
    have met := (meeting?_eq_some_iff positive).mpr meets
    have apart : first ≠ second := by
      rintro rfl
      have level : first.det first = 0 := by
        rw [Constraint.det]
        ring
      rw [level, abs_zero] at meets
      exact absurd positive (not_lt.mpr meets.1)
    rcases mem_pairs_of_ne firstMember secondMember apart with listed | listed
    · exact ⟨(first, second), listed, met⟩
    · exact ⟨(second, first), listed, (meeting?_swap first second).trans met⟩

/-! ## Feasibility -/

theorem holdsAt_eq_ok (constraint : Constraint Rat) (point : Point Rat) (tolerance : Rat) :
    constraint.holdsAt (constraint.value point) tolerance =
      .ok (decide (constraint.excess point ≤ tolerance)) := by
  unfold Constraint.holdsAt Constraint.excess
  cases constraint.relation with
  | atMost =>
      simp only [Scalar.add_rat, ok_bind, measured_rat, Scalar.greater_rat, pure_eq_ok,
        ← decide_not, not_lt, sub_le_iff_le_add']
  | atLeast =>
      simp only [Scalar.sub_rat, ok_bind, measured_rat, Scalar.less_rat, pure_eq_ok,
        ← decide_not, not_lt, sub_le_comm]
  | equal =>
      simp only [Scalar.sub_rat, Scalar.abs_rat, ok_bind, measured_rat, Scalar.greater_rat,
        pure_eq_ok, ← decide_not, not_lt]

theorem allHold_eq_ok (constraints : List (Constraint Rat)) (point : Point Rat)
    (tolerance : Rat) :
    allHold tolerance
        (constraints.map fun constraint => (constraint, constraint.value point)) =
      .ok (decide (∀ constraint ∈ constraints, constraint.excess point ≤ tolerance)) := by
  induction constraints with
  | nil => rfl
  | cons constraint rest induction =>
      rw [List.map_cons, allHold, holdsAt_eq_ok, ok_bind]
      by_cases within : constraint.excess point ≤ tolerance
      · simp only [within, decide_true, if_true, induction, List.forall_mem_cons, true_and]
      · simp [within]

theorem isFeasible_eq_ok (constraints : List (Constraint Rat)) (tolerance : Rat)
    (point : Point Rat) :
    isFeasible constraints tolerance point =
      .ok (decide (∀ constraint ∈ constraints, constraint.excess point ≤ tolerance)) := by
  have rows : constraints.mapM (fun constraint => do
      return (← Coordinate.measured constraint.a, ← Coordinate.measured constraint.b)) =
        (.ok (constraints.map fun constraint => (constraint.a, constraint.b)) :
          Except Fault (List (Rat × Rat))) :=
    mapM_eq_ok fun _ _ => rfl
  have values : (constraints.map fun constraint => (constraint.a, constraint.b)).mapM
      (fun row => do Scalar.add (← Scalar.mul row.1 point.x) (← Scalar.mul row.2 point.y)) =
        .ok ((constraints.map fun constraint => (constraint.a, constraint.b)).map
          fun row => row.1 * point.x + row.2 * point.y) :=
    mapM_eq_ok fun _ _ => rfl
  have zipped : constraints.zip ((constraints.map fun constraint =>
      (constraint.a, constraint.b)).map fun row => row.1 * point.x + row.2 * point.y) =
        constraints.map fun constraint => (constraint, constraint.value point) := by
    have both : (constraints.map id).zip
        (constraints.map fun constraint => constraint.value point) =
          constraints.map fun constraint => (constraint, constraint.value point) :=
      List.zip_map'
    rw [List.map_id] at both
    rw [List.map_map]
    exact both
  unfold isFeasible
  rw [rows, ok_bind, measured_rat, ok_bind, measured_rat, ok_bind, values, ok_bind, zipped]
  exact allHold_eq_ok constraints point tolerance

/-- Whether a tolerance lets a point pass as one of the region. -/
def Passes (tolerance : Rat) (constraints : List (Constraint Rat)) (point : Point Rat) : Prop :=
  ∀ constraint ∈ constraints, constraint.excess point ≤ tolerance

instance (constraints : List (Constraint Rat)) :
    DecidablePred (Passes tolerance constraints) :=
  fun _ => List.decidableBAll _ _

theorem feasibleVertices_eq_distinct (tolerance : Rat) (constraints : List (Constraint Rat))
    (points : List (Point Rat)) :
    feasibleVertices constraints tolerance points =
      distinct tolerance (points.filter (Passes tolerance constraints)) := by
  have filtered : Scalar.filterBy (isFeasible constraints tolerance) points =
      .ok (points.filter (Passes tolerance constraints)) :=
    Scalar.filterBy_eq_ok fun point _ => isFeasible_eq_ok constraints tolerance point
  rw [feasibleVertices, filtered, ok_bind]

/-! ## Distinct points -/

/-- Whether two points are near each other. -/
def Near (tolerance : Rat) (first second : Point Rat) : Prop :=
  |first.x - second.x| ≤ tolerance ∧ |first.y - second.y| ≤ tolerance

theorem isKnown_eq_ok (tolerance : Rat) (point : Point Rat) (known : List (Point Rat)) :
    ∃ answer, isKnown tolerance point known = .ok answer ∧
      (answer = true ↔ ∃ other ∈ known, Near tolerance point other) := by
  induction known with
  | nil => exact ⟨false, rfl, by simp⟩
  | cons other rest induction =>
      obtain ⟨answer, result, meaning⟩ := induction
      by_cases horizontal : |point.x - other.x| ≤ tolerance
      · by_cases vertical : |point.y - other.y| ≤ tolerance
        · refine ⟨true, ?_, by simp [Near, horizontal, vertical]⟩
          simp [isKnown, isNear, horizontal, vertical]
        · refine ⟨answer, ?_, by simp [meaning, Near, vertical]⟩
          simp [isKnown, isNear, horizontal, vertical, result]
      · refine ⟨answer, ?_, by simp [meaning, Near, horizontal]⟩
        simp [isKnown, isNear, horizontal, result]

theorem near_self (nonneg : 0 ≤ tolerance) (point : Point Rat) : Near tolerance point point := by
  simp [Near, nonneg]

theorem Near.symm {first second : Point Rat} (near : Near tolerance first second) :
    Near tolerance second first := by
  rwa [Near, abs_sub_comm, abs_sub_comm second.y]

/-- The points kept are far from each other, and every point is near one of them. -/
theorem distinct_keeps (nonneg : 0 ≤ tolerance) (points : List (Point Rat)) :
    ∃ kept, distinct tolerance points = .ok kept ∧ kept.Sublist points ∧
      (kept.Pairwise fun first second => ¬ Near tolerance first second) ∧
      ∀ point ∈ points, ∃ other ∈ kept, Near tolerance point other := by
  unfold distinct
  apply foldlM_invariant fun (seen kept : List (Point Rat)) => kept.Sublist seen ∧
    (kept.Pairwise fun first second => ¬ Near tolerance first second) ∧
    ∀ point ∈ seen, ∃ other ∈ kept, Near tolerance point other
  · simp
  · rintro seen point kept ⟨sublist, apart, covered⟩ _
    obtain ⟨answer, result, known⟩ := isKnown_eq_ok tolerance point kept
    cases answer with
    | true =>
        refine ⟨kept, by simp [result], sublist.trans (List.sublist_append_left seen _), apart,
          List.forall_mem_append.mpr ⟨covered, List.forall_mem_singleton.mpr (known.mp rfl)⟩⟩
    | false =>
        have fresh : ∀ other ∈ kept, ¬ Near tolerance other point := fun other member near =>
          Bool.false_ne_true (known.mpr ⟨other, member, near.symm⟩)
        refine ⟨kept ++ [point], by simp [result], sublist.append (List.Sublist.refl [point]),
          ?_, List.forall_mem_append.mpr ⟨fun other member => ?_, ?_⟩⟩
        · refine List.pairwise_append.mpr ⟨apart, List.pairwise_singleton _ _, ?_⟩
          simpa using fresh
        · obtain ⟨held, heldMember, near⟩ := covered other member
          exact ⟨held, List.mem_append_left _ heldMember, near⟩
        · exact List.forall_mem_singleton.mpr ⟨point, by simp, near_self nonneg point⟩

end Tolerated

end OptimalPlans.Plane
