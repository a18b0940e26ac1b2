import OptimalPlans.Plane.Vertex
import OptimalPlans.Proofs.Plane.HalfPlane

/-!
# The region of a program

The points of the first quadrant that satisfy all constraints, over any ordered field: the
rationals in which a program is given, or the reals.  The region is a polygon whose
boundary lines are those of the constraints and the two axes, so its extreme points are
the places where two of these lines cross, and they are rational.
-/

namespace OptimalPlans.Plane

/-! ## Boundary lines -/

namespace Constraint

/-- The left side of a constraint. -/
def value (constraint : Constraint Rat) (point : Point Rat) : Rat :=
  constraint.a * point.x + constraint.b * point.y

/-- By how much a point violates a constraint; not at all unless this is positive. -/
def excess (constraint : Constraint Rat) (point : Point Rat) : Rat :=
  match constraint.relation with
  | .atMost => constraint.value point - constraint.rhs
  | .atLeast => constraint.rhs - constraint.value point
  | .equal => |constraint.value point - constraint.rhs|

def OnBoundary (constraint : Constraint Rat) (point : Point Rat) : Prop :=
  constraint.value point = constraint.rhs

/-- The determinant of two boundary lines, zero when they are parallel. -/
def det (first second : Constraint Rat) : Rat :=
  first.a * second.b - first.b * second.a

end Constraint

/-- The point in which two boundary lines cross. -/
def crossing (first second : Constraint Rat) : Point Rat where
  x := (first.rhs * second.b - first.b * second.rhs) / first.det second
  y := (first.a * second.rhs - first.rhs * second.a) / first.det second

/-- A point in which two boundary lines that are not parallel cross. -/
def IsCrossing (constraints : List (Constraint Rat)) (point : Point Rat) : Prop :=
  ∃ first ∈ constraints, ∃ second ∈ constraints,
    first.det second ≠ 0 ∧ first.OnBoundary point ∧ second.OnBoundary point

theorem onBoundary_crossing {first second : Constraint Rat}
    (crosses : first.det second ≠ 0) :
    first.OnBoundary (crossing first second) ∧
      second.OnBoundary (crossing first second) := by
  constructor
  · simp only [Constraint.OnBoundary, Constraint.value, crossing]
    field_simp
    simp only [Constraint.det]
    ring
  · simp only [Constraint.OnBoundary, Constraint.value, crossing]
    field_simp
    simp only [Constraint.det]
    ring

/-! ## Points over an ordered field -/

section Field

variable {K : Type} [Field K]

/-- A rational point among those over the field. -/
def Point.cast (K : Type) [Field K] (point : Point Rat) : K × K :=
  (point.x, point.y)

theorem cast_injective [CharZero K] : Function.Injective (Point.cast K) := by
  rintro ⟨x, y⟩ ⟨x', y'⟩ same
  simpa [Point.cast] using same

def Constraint.normal (K : Type) [Field K] (constraint : Constraint Rat) : K × K :=
  (constraint.a, constraint.b)

variable [LinearOrder K]

def Constraint.Holds (constraint : Constraint Rat) (point : K × K) : Prop :=
  match constraint.relation with
  | .atMost => constraint.a * point.1 + constraint.b * point.2 ≤ (constraint.rhs : K)
  | .atLeast => constraint.rhs ≤ (constraint.a * point.1 + constraint.b * point.2 : K)
  | .equal => constraint.a * point.1 + constraint.b * point.2 = (constraint.rhs : K)

/-- The points of the first quadrant that satisfy all constraints. -/
def region (K : Type) [Field K] [LinearOrder K] (constraints : List (Constraint Rat)) :
    Set (K × K) :=
  {point | 0 ≤ point.1 ∧ 0 ≤ point.2 ∧ ∀ constraint ∈ constraints, constraint.Holds point}

theorem holds_nonNegativity {constraints : List (Constraint Rat)} {point : K × K} :
    (∀ constraint ∈ constraints ++ nonNegativity, constraint.Holds point) ↔
      point ∈ region K constraints := by
  have horizontal : (⟨Coordinate.whole 1, Coordinate.whole 0, .atLeast, Coordinate.whole 0⟩ :
      Constraint Rat).Holds point ↔ 0 ≤ point.1 := by
    simp [Constraint.Holds, Coordinate.whole]
  have vertical : (⟨Coordinate.whole 0, Coordinate.whole 1, .atLeast, Coordinate.whole 0⟩ :
      Constraint Rat).Holds point ↔ 0 ≤ point.2 := by
    simp [Constraint.Holds, Coordinate.whole]
  rw [nonNegativity, List.forall_mem_append, List.forall_mem_cons, List.forall_mem_singleton,
    horizontal, vertical]
  constructor
  · rintro ⟨holds, right, up⟩
    exact ⟨right, up, holds⟩
  · rintro ⟨right, up, holds⟩
    exact ⟨holds, right, up⟩

variable [IsStrictOrderedRing K]

theorem holds_cast {constraint : Constraint Rat} {point : Point Rat} :
    constraint.Holds (point.cast K) ↔ constraint.excess point ≤ 0 := by
  have value : (constraint.a * point.x + constraint.b * point.y : K) =
      (constraint.value point : Rat) := by
    simp [Constraint.value]
  unfold Constraint.Holds Constraint.excess Point.cast
  rw [value]
  cases constraint.relation with
  | atMost =>
      simp only [sub_nonpos]
      exact_mod_cast Iff.rfl
  | atLeast =>
      simp only [sub_nonpos]
      exact_mod_cast Iff.rfl
  | equal =>
      simp only [abs_nonpos_iff, sub_eq_zero]
      exact_mod_cast Iff.rfl

theorem dot_cast {constraint : Constraint Rat} {point : Point Rat} :
    dot (constraint.normal K) (point.cast K) = (constraint.value point : Rat) := by
  simp [dot, Constraint.normal, Point.cast, Constraint.value]

theorem dot_along_normal (first second : Constraint Rat) :
    dot (second.normal K) (along (first.normal K)) = (first.det second : Rat) := by
  simp [dot_along, Constraint.normal, Constraint.det]

/-! ## The region as a polygon -/

/-- The half-planes of a constraint; an equality is the common line of two. -/
def Constraint.sides (K : Type) [Field K] (constraint : Constraint Rat) :
    List (HalfPlane K) :=
  match constraint.relation with
  | .atMost => [⟨constraint.normal K, constraint.rhs⟩]
  | .atLeast => [⟨-constraint.normal K, -constraint.rhs⟩]
  | .equal =>
      [⟨constraint.normal K, constraint.rhs⟩, ⟨-constraint.normal K, -constraint.rhs⟩]

theorem contains_sides_iff {constraint : Constraint Rat} {point : K × K} :
    (∀ side ∈ constraint.sides K, side.Contains point) ↔ constraint.Holds point := by
  have below : dot (constraint.normal K) point =
      constraint.a * point.1 + constraint.b * point.2 := rfl
  have above : dot (-constraint.normal K) point =
      -(constraint.a * point.1 + constraint.b * point.2) := by
    simp only [dot, Constraint.normal, Prod.fst_neg, Prod.snd_neg]
    ring
  unfold Constraint.sides Constraint.Holds
  cases constraint.relation with
  | atMost => simp [HalfPlane.Contains, below]
  | atLeast => simp [HalfPlane.Contains, above]
  | equal => simp [HalfPlane.Contains, below, above, le_antisymm_iff]

theorem polygon_sides (constraints : List (Constraint Rat)) :
    polygon ((constraints ++ nonNegativity).flatMap (Constraint.sides K)) =
      region K constraints := by
  ext point
  rw [← holds_nonNegativity]
  constructor
  · intro inside constraint member
    exact contains_sides_iff.mp fun side sideMember =>
      inside side (List.mem_flatMap_of_mem member sideMember)
  · intro holds side sideMember
    obtain ⟨constraint, member, sideMember⟩ := List.mem_flatMap.mp sideMember
    exact contains_sides_iff.mpr (holds constraint member) side sideMember

/-- A half-plane of a constraint is one side of its boundary line. -/
theorem side_eq {constraint : Constraint Rat} {side : HalfPlane K}
    (member : side ∈ constraint.sides K) :
    ∃ sign : K, sign ≠ 0 ∧ side.normal = sign • constraint.normal K ∧
      side.bound = sign * constraint.rhs := by
  have plain : ∃ sign : K, sign ≠ 0 ∧
      constraint.normal K = sign • constraint.normal K ∧
      (constraint.rhs : K) = sign * constraint.rhs :=
    ⟨1, one_ne_zero, (one_smul K _).symm, (one_mul _).symm⟩
  have flipped : ∃ sign : K, sign ≠ 0 ∧
      -constraint.normal K = sign • constraint.normal K ∧
      -(constraint.rhs : K) = sign * constraint.rhs :=
    ⟨-1, neg_ne_zero.mpr one_ne_zero, (neg_one_smul K _).symm, (neg_one_mul _).symm⟩
  unfold Constraint.sides at member
  split at member
  · obtain rfl := List.mem_singleton.mp member
    exact plain
  · obtain rfl := List.mem_singleton.mp member
    exact flipped
  · rcases List.mem_cons.mp member with rfl | rest
    · exact plain
    · obtain rfl := List.mem_singleton.mp rest
      exact flipped

omit [LinearOrder K] [IsStrictOrderedRing K] in
theorem exists_side (constraint : Constraint Rat) : ∃ side, side ∈ constraint.sides K := by
  unfold Constraint.sides
  split
  all_goals exact ⟨_, List.mem_cons_self⟩

theorem touches_iff {constraint : Constraint Rat} {side : HalfPlane K} {point : K × K}
    (member : side ∈ constraint.sides K) :
    side.Touches point ↔ dot (constraint.normal K) point = (constraint.rhs : K) := by
  obtain ⟨sign, nonzero, normal, bound⟩ := side_eq member
  have scaled : dot side.normal point = sign * dot (constraint.normal K) point := by
    rw [normal]
    simp only [dot, Prod.smul_fst, Prod.smul_snd, smul_eq_mul]
    ring
  rw [HalfPlane.Touches, scaled, bound]
  exact mul_right_inj' nonzero

theorem crosses_iff {first second : Constraint Rat} {left right : HalfPlane K}
    (leftMember : left ∈ first.sides K) (rightMember : right ∈ second.sides K) :
    left.Crosses right ↔ first.det second ≠ 0 := by
  obtain ⟨sign, nonzero, normal, _⟩ := side_eq leftMember
  obtain ⟨otherSign, otherNonzero, otherNormal, _⟩ := side_eq rightMember
  have scaled : dot right.normal (along left.normal) =
      sign * otherSign * dot (second.normal K) (along (first.normal K)) := by
    rw [normal, otherNormal]
    simp only [dot_along, Prod.smul_fst, Prod.smul_snd, smul_eq_mul]
    ring
  rw [HalfPlane.Crosses, scaled, dot_along_normal]
  simp [nonzero, otherNonzero]

/-- The corners of the region are the crossings in it. -/
theorem isCorner_iff {constraints : List (Constraint Rat)} {corner : K × K} :
    IsCorner ((constraints ++ nonNegativity).flatMap (Constraint.sides K)) corner ↔
      corner ∈ region K constraints ∧
        ∃ point, IsCrossing (constraints ++ nonNegativity) point ∧
          corner = point.cast K := by
  rw [← polygon_sides]
  constructor
  · rintro ⟨inside, left, leftMember, right, rightMember, crosses, onLeft, onRight⟩
    refine ⟨inside, ?_⟩
    obtain ⟨first, firstMember, leftSide⟩ := List.mem_flatMap.mp leftMember
    obtain ⟨second, secondMember, rightSide⟩ := List.mem_flatMap.mp rightMember
    have slanted := (crosses_iff leftSide rightSide).mp crosses
    obtain ⟨onFirst, onSecond⟩ := onBoundary_crossing slanted
    refine ⟨crossing first second,
      ⟨first, firstMember, second, secondMember, slanted, onFirst, onSecond⟩, ?_⟩
    have apart : dot (second.normal K) (along (first.normal K)) ≠ 0 := by
      rw [dot_along_normal]
      exact_mod_cast slanted
    refine eq_of_dot_eq apart ?_ ?_
    · rw [dot_cast, (touches_iff leftSide).mp onLeft]
      exact congrArg _ onFirst.symm
    · rw [dot_cast, (touches_iff rightSide).mp onRight]
      exact congrArg _ onSecond.symm
  · rintro ⟨inside, point, ⟨first, firstMember, second, secondMember, slanted, onFirst,
      onSecond⟩, rfl⟩
    obtain ⟨left, leftSide⟩ : ∃ side, side ∈ first.sides K := exists_side first
    obtain ⟨right, rightSide⟩ : ∃ side, side ∈ second.sides K := exists_side second
    refine ⟨inside, left, List.mem_flatMap_of_mem firstMember leftSide, right,
      List.mem_flatMap_of_mem secondMember rightSide,
      (crosses_iff leftSide rightSide).mpr slanted, ?_, ?_⟩
    · rw [touches_iff leftSide, dot_cast]
      exact congrArg _ onFirst
    · rw [touches_iff rightSide, dot_cast]
      exact congrArg _ onSecond

theorem pointed_sides (constraints : List (Constraint Rat)) :
    Pointed ((constraints ++ nonNegativity).flatMap (Constraint.sides K)) := by
  have limited : ∀ ahead : K × K, ahead.1 < 0 ∨ ahead.2 < 0 →
      ∃ side ∈ (constraints ++ nonNegativity).flatMap (Constraint.sides K),
        0 < dot side.normal ahead := by
    rintro ahead (left | down)
    · refine ⟨_, List.mem_flatMap_of_mem (List.mem_append_right _ List.mem_cons_self)
        List.mem_cons_self, ?_⟩
      simpa [dot, Constraint.normal, Coordinate.whole] using left
    · refine ⟨_, List.mem_flatMap_of_mem (List.mem_append_right _
        (List.mem_cons_of_mem _ List.mem_cons_self)) List.mem_cons_self, ?_⟩
      simpa [dot, Constraint.normal, Coordinate.whole] using down
  intro direction moves
  have leaves : direction.1 ≠ 0 ∨ direction.2 ≠ 0 := by
    by_contra still
    push Not at still
    exact moves (Prod.ext still.1 still.2)
  rcases leaves with sideways | upright
  · rcases lt_or_gt_of_ne sideways with left | right
    · exact .inl (limited direction (.inl left))
    · exact .inr (limited (-direction) (.inl (neg_neg_of_pos right)))
  · rcases lt_or_gt_of_ne upright with down | up
    · exact .inl (limited direction (.inr down))
    · exact .inr (limited (-direction) (.inr (neg_neg_of_pos up)))

/-! ## Extreme points and goals -/

theorem extremePoints_region (constraints : List (Constraint Rat)) :
    (region K constraints).extremePoints K =
      {corner | corner ∈ region K constraints ∧
        ∃ point, IsCrossing (constraints ++ nonNegativity) point ∧
          corner = point.cast K} := by
  ext corner
  rw [← polygon_sides, mem_extremePoints_iff, isCorner_iff, polygon_sides]
  rfl

/-- A goal that is bounded on the region is nowhere higher than at some crossing in it. -/
theorem exists_crossing_above {constraints : List (Constraint Rat)} {place goal : K × K}
    (inside : place ∈ region K constraints)
    (bounded : BddAbove (dot goal '' region K constraints)) :
    ∃ point, IsCrossing (constraints ++ nonNegativity) point ∧
      point.cast K ∈ region K constraints ∧ dot goal place ≤ dot goal (point.cast K) := by
  rw [← polygon_sides] at inside bounded
  obtain ⟨corner, isCorner, above⟩ :=
    exists_corner_above (pointed_sides constraints) inside bounded
  obtain ⟨cornerInside, point, isCrossing, rfl⟩ := isCorner_iff.mp isCorner
  exact ⟨point, isCrossing, cornerInside, above⟩

end Field

/-! ## The crossings of a list of lines -/

theorem crossing_unique {first second : Constraint Rat} (crosses : first.det second ≠ 0)
    {left right : Point Rat} (leftFirst : first.OnBoundary left)
    (leftSecond : second.OnBoundary left) (rightFirst : first.OnBoundary right)
    (rightSecond : second.OnBoundary right) : left = right := by
  have apart : dot (second.normal Rat) (along (first.normal Rat)) ≠ 0 := by
    rw [dot_along_normal]
    exact_mod_cast crosses
  have same : left.cast Rat = right.cast Rat := by
    refine eq_of_dot_eq apart ?_ ?_
    · rw [dot_cast, dot_cast, leftFirst, rightFirst]
    · rw [dot_cast, dot_cast, leftSecond, rightSecond]
  exact cast_injective same

theorem isCrossing_iff {constraints : List (Constraint Rat)} {point : Point Rat} :
    IsCrossing constraints point ↔
      ∃ first ∈ constraints, ∃ second ∈ constraints,
        first.det second ≠ 0 ∧ crossing first second = point := by
  refine exists_congr fun first => and_congr_right fun _ => exists_congr fun second =>
    and_congr_right fun _ => and_congr_right fun crosses => ?_
  obtain ⟨onFirst, onSecond⟩ := onBoundary_crossing crosses
  constructor
  · rintro ⟨first, second⟩
    exact crossing_unique crosses onFirst onSecond first second
  · rintro rfl
    exact ⟨onFirst, onSecond⟩

/-- The crossings of a list of lines, each with its pair of lines. -/
def crossings (constraints : List (Constraint Rat)) : List (Point Rat) :=
  constraints.flatMap fun first =>
    (constraints.filter fun second => first.det second ≠ 0).map (crossing first)

theorem mem_crossings {constraints : List (Constraint Rat)} {point : Point Rat} :
    point ∈ crossings constraints ↔ IsCrossing constraints point := by
  rw [isCrossing_iff]
  simp [crossings, and_assoc]

end OptimalPlans.Plane
