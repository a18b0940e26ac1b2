import Mathlib

/-!
# Corners of a polygon

A polygon is the common part of finitely many half-planes.  Going from one of its points
in a direction that some half-plane limits ends on a boundary line.  Two such walks end in
a corner, where boundary lines that are not parallel meet; so a polygon that holds no
line has a corner wherever a linear goal is bounded, and its corners are its extreme
points.
-/

namespace OptimalPlans.Plane

variable {K : Type} [Field K]

/-- The value of a linear form at a point or along a direction. -/
def dot (normal point : K × K) : K :=
  normal.1 * point.1 + normal.2 * point.2

theorem dot_move (normal point direction : K × K) (step : K) :
    dot normal (point + step • direction) =
      dot normal point + step * dot normal direction := by
  simp only [dot, Prod.fst_add, Prod.snd_add, Prod.smul_fst, Prod.smul_snd, smul_eq_mul]
  ring

theorem dot_mean (normal left right : K × K) (weight rest : K) :
    dot normal (weight • left + rest • right) =
      weight * dot normal left + rest * dot normal right := by
  simp only [dot, Prod.fst_add, Prod.snd_add, Prod.smul_fst, Prod.smul_snd, smul_eq_mul]
  ring

theorem dot_neg (normal direction : K × K) :
    dot normal (-direction) = -dot normal direction := by
  simp only [dot, Prod.fst_neg, Prod.snd_neg]
  ring

/-- The direction of the lines on which a linear form is constant. -/
def along (normal : K × K) : K × K :=
  (-normal.2, normal.1)

theorem along_neg (normal : K × K) : along (-normal) = -along normal := rfl

theorem dot_along (normal other : K × K) :
    dot other (along normal) = normal.1 * other.2 - normal.2 * other.1 := by
  simp only [dot, along]
  ring

@[simp] theorem dot_along_self (normal : K × K) : dot normal (along normal) = 0 := by
  rw [dot_along]
  ring

/-- Two lines that are not parallel meet in one point only. -/
theorem eq_of_dot_eq {first second left right : K × K}
    (crossing : dot second (along first) ≠ 0)
    (onFirst : dot first left = dot first right)
    (onSecond : dot second left = dot second right) : left = right := by
  rw [dot_along] at crossing
  have horizontal : (first.1 * second.2 - first.2 * second.1) * (left.1 - right.1) = 0 := by
    simp only [dot] at onFirst onSecond
    linear_combination second.2 * onFirst - first.2 * onSecond
  have vertical : (first.1 * second.2 - first.2 * second.1) * (left.2 - right.2) = 0 := by
    simp only [dot] at onFirst onSecond
    linear_combination first.1 * onSecond - second.1 * onFirst
  have sameX := (mul_eq_zero.mp horizontal).resolve_left crossing
  have sameY := (mul_eq_zero.mp vertical).resolve_left crossing
  exact Prod.ext (sub_eq_zero.mp sameX) (sub_eq_zero.mp sameY)

/-- The points on one side of a line, the line included. -/
structure HalfPlane (K : Type) where
  normal : K × K
  bound : K

def HalfPlane.Touches (side : HalfPlane K) (point : K × K) : Prop :=
  dot side.normal point = side.bound

/-- Two half-planes whose boundary lines meet in one point. -/
def HalfPlane.Crosses (first second : HalfPlane K) : Prop :=
  dot second.normal (along first.normal) ≠ 0

section Ordered

variable [LinearOrder K]

def HalfPlane.Contains (side : HalfPlane K) (point : K × K) : Prop :=
  dot side.normal point ≤ side.bound

/-- The common part of half-planes. -/
def polygon (sides : List (HalfPlane K)) : Set (K × K) :=
  {point | ∀ side ∈ sides, side.Contains point}

/-- A point of the polygon in which two boundary lines meet. -/
structure IsCorner (sides : List (HalfPlane K)) (point : K × K) : Prop where
  inside : point ∈ polygon sides
  meets : ∃ first ∈ sides, ∃ second ∈ sides,
    first.Crosses second ∧ first.Touches point ∧ second.Touches point

/-- Every line leaves the polygon at one end at least. -/
def Pointed (sides : List (HalfPlane K)) : Prop :=
  ∀ direction : K × K, direction ≠ 0 →
    (∃ side ∈ sides, 0 < dot side.normal direction) ∨
      ∃ side ∈ sides, 0 < dot side.normal (-direction)

variable [IsStrictOrderedRing K] {sides : List (HalfPlane K)} {point direction goal : K × K}

/-! ## Walking to the boundary -/

/-- A direction that is limited leads to a boundary line. -/
theorem exists_stop (inside : point ∈ polygon sides)
    (limited : ∃ side ∈ sides, 0 < dot side.normal direction) :
    ∃ step : K, 0 ≤ step ∧ point + step • direction ∈ polygon sides ∧
      ∃ side ∈ sides, 0 < dot side.normal direction ∧
        side.Touches (point + step • direction) := by
  let limits : Set (HalfPlane K) := {side | side ∈ sides ∧ 0 < dot side.normal direction}
  let room : HalfPlane K → K := fun side =>
    (side.bound - dot side.normal point) / dot side.normal direction
  have finite : limits.Finite := (List.finite_toSet sides).subset fun side member => member.1
  obtain ⟨first, ⟨member, rises⟩, least⟩ := Set.exists_min_image limits room finite limited
  have nonneg : 0 ≤ room first :=
    div_nonneg (sub_nonneg.mpr (inside first member)) rises.le
  refine ⟨room first, nonneg, fun side sideMember => ?_, first, member, rises, ?_⟩
  · rw [HalfPlane.Contains, dot_move]
    rcases le_or_gt (dot side.normal direction) 0 with falls | sideRises
    · have unchanged := inside side sideMember
      have lower := mul_nonpos_of_nonneg_of_nonpos nonneg falls
      rw [HalfPlane.Contains] at unchanged
      linarith
    · have within := least side ⟨sideMember, sideRises⟩
      rw [le_div_iff₀ sideRises] at within
      linarith
  · rw [HalfPlane.Touches, dot_move, div_mul_cancel₀ _ rises.ne']
    ring

/-- A point can move in a direction that no boundary line through it limits. -/
theorem exists_room (inside : point ∈ polygon sides)
    (free : ∀ side ∈ sides, side.Touches point → dot side.normal direction ≤ 0) :
    ∃ step : K, 0 < step ∧ point + step • direction ∈ polygon sides := by
  by_cases limited : ∃ side ∈ sides, 0 < dot side.normal direction
  · obtain ⟨step, nonneg, stays, side, member, rises, touches⟩ := exists_stop inside limited
    refine ⟨step, nonneg.lt_of_ne ?_, stays⟩
    rintro rfl
    rw [zero_smul, add_zero] at touches
    exact absurd rises (not_lt.mpr (free side member touches))
  · refine ⟨1, one_pos, fun side member => ?_⟩
    have falls : dot side.normal direction ≤ 0 :=
      not_lt.mp fun rises => limited ⟨side, member, rises⟩
    have unchanged := inside side member
    rw [HalfPlane.Contains] at unchanged ⊢
    rw [dot_move, one_mul]
    linarith

/-- A direction in which a bounded goal rises is limited. -/
theorem limited_of_bddAbove (inside : point ∈ polygon sides)
    (bounded : BddAbove (dot goal '' polygon sides)) (rises : 0 < dot goal direction) :
    ∃ side ∈ sides, 0 < dot side.normal direction := by
  by_contra unlimited
  obtain ⟨most, above⟩ := bounded
  have stays : ∀ step : K, 0 ≤ step → point + step • direction ∈ polygon sides := by
    intro step nonneg side member
    have falls : dot side.normal direction ≤ 0 :=
      not_lt.mp fun sideRises => unlimited ⟨side, member, sideRises⟩
    have lower := mul_nonpos_of_nonneg_of_nonpos nonneg falls
    have unchanged := inside side member
    rw [HalfPlane.Contains] at unchanged ⊢
    rw [dot_move]
    linarith
  have start : dot goal point ≤ most := above ⟨point, inside, rfl⟩
  let step := (most - dot goal point) / dot goal direction + 1
  have nonneg : 0 ≤ step :=
    add_nonneg (div_nonneg (sub_nonneg.mpr start) rises.le) zero_le_one
  have below : dot goal (point + step • direction) ≤ most :=
    above ⟨_, stays step nonneg, rfl⟩
  rw [dot_move, add_mul, div_mul_cancel₀ _ rises.ne'] at below
  linarith

/-- A boundary point on the line through a point at which the goal is no lower. -/
def StopsAbove (sides : List (HalfPlane K)) (goal point direction : K × K) : Prop :=
  ∃ step : K, point + step • direction ∈ polygon sides ∧
    dot goal point ≤ dot goal (point + step • direction) ∧
    ∃ side ∈ sides, dot side.normal direction ≠ 0 ∧ side.Touches (point + step • direction)

theorem stopsAbove_of_limited (inside : point ∈ polygon sides)
    (higher : 0 ≤ dot goal direction)
    (limited : ∃ side ∈ sides, 0 < dot side.normal direction) :
    StopsAbove sides goal point direction := by
  obtain ⟨step, nonneg, stays, side, member, rises, touches⟩ := exists_stop inside limited
  refine ⟨step, stays, ?_, side, member, rises.ne', touches⟩
  rw [dot_move]
  exact le_add_of_nonneg_right (mul_nonneg nonneg higher)

omit [IsStrictOrderedRing K] in
theorem StopsAbove.of_neg (stops : StopsAbove sides goal point (-direction)) :
    StopsAbove sides goal point direction := by
  obtain ⟨step, stays, above, side, member, crosses, touches⟩ := stops
  rw [smul_neg, ← neg_smul] at stays above touches
  rw [dot_neg, neg_ne_zero] at crosses
  exact ⟨-step, stays, above, side, member, crosses, touches⟩

theorem stopsAbove (pointed : Pointed sides) (inside : point ∈ polygon sides)
    (bounded : BddAbove (dot goal '' polygon sides)) (moves : direction ≠ 0) :
    StopsAbove sides goal point direction := by
  rcases lt_trichotomy (dot goal direction) 0 with falls | level | rises
  · have higher : 0 < dot goal (-direction) := by
      rw [dot_neg]
      exact neg_pos.mpr falls
    have limited := limited_of_bddAbove inside bounded higher
    exact (stopsAbove_of_limited inside higher.le limited).of_neg
  · have back : 0 ≤ dot goal (-direction) := by
      rw [dot_neg, level, neg_zero]
    rcases pointed direction moves with ahead | behind
    · exact stopsAbove_of_limited inside level.ge ahead
    · exact (stopsAbove_of_limited inside back behind).of_neg
  · have limited := limited_of_bddAbove inside bounded rises
    exact stopsAbove_of_limited inside rises.le limited

/-- No point of the polygon beats all corners in a bounded goal. -/
theorem exists_corner_above (pointed : Pointed sides) (inside : point ∈ polygon sides)
    (bounded : BddAbove (dot goal '' polygon sides)) :
    ∃ corner, IsCorner sides corner ∧ dot goal point ≤ dot goal corner := by
  have sideways : ((1, 0) : K × K) ≠ 0 := fun same =>
    one_ne_zero (congrArg Prod.fst same)
  obtain ⟨step, stays, above, first, firstMember, crosses, firstTouches⟩ :=
    stopsAbove pointed inside bounded sideways
  have turns : along first.normal ≠ 0 := by
    intro same
    apply crosses
    have flat : first.normal.1 = 0 := congrArg Prod.snd same
    rw [dot, flat]
    ring
  obtain ⟨rest, ends, aboveToo, second, secondMember, crosses, touches⟩ :=
    stopsAbove pointed stays bounded turns
  refine ⟨_, ⟨ends, first, firstMember, second, secondMember, crosses, ?_, touches⟩,
    above.trans aboveToo⟩
  rw [HalfPlane.Touches, dot_move, dot_along_self, mul_zero, add_zero]
  exact firstTouches

/-! ## Extreme points -/

omit [LinearOrder K] [IsStrictOrderedRing K] in
theorem mean_self {weight rest : K} (total : weight + rest = 1) (value : K) :
    weight * value + rest * value = value := by
  rw [← add_mul, total, one_mul]

/-- A half-plane that touches a mean of two of its points touches both. -/
theorem touches_of_mean {side : HalfPlane K} {left right : K × K} {weight rest : K}
    (weightPositive : 0 < weight) (restPositive : 0 < rest) (total : weight + rest = 1)
    (leftInside : side.Contains left) (rightInside : side.Contains right)
    (touches : side.Touches (weight • left + rest • right)) : side.Touches left := by
  rw [HalfPlane.Touches, dot_mean] at touches
  rw [HalfPlane.Contains] at leftInside rightInside
  apply le_antisymm leftInside
  have spread := mean_self total side.bound
  have below := mul_le_mul_of_nonneg_left rightInside restPositive.le
  have scaled : weight * side.bound ≤ weight * dot side.normal left := by linarith
  exact le_of_mul_le_mul_left scaled weightPositive

theorem IsCorner.mem_extremePoints (corner : IsCorner sides point) :
    point ∈ (polygon sides).extremePoints K := by
  refine ⟨corner.inside, ?_⟩
  rintro left leftInside right rightInside
    ⟨weight, rest, weightPositive, restPositive, total, rfl⟩
  obtain ⟨first, firstMember, second, secondMember, crosses, onFirst, onSecond⟩ :=
    corner.meets
  have leftFirst := touches_of_mean weightPositive restPositive total
    (leftInside first firstMember) (rightInside first firstMember) onFirst
  have leftSecond := touches_of_mean weightPositive restPositive total
    (leftInside second secondMember) (rightInside second secondMember) onSecond
  exact eq_of_dot_eq crosses (leftFirst.trans onFirst.symm) (leftSecond.trans onSecond.symm)

/-- A corner is further than all other points along the sum of two normals. -/
theorem IsCorner.exists_normal (corner : IsCorner sides point) :
    ∃ normal : K × K, ∀ other ∈ polygon sides, other ≠ point →
      dot normal other < dot normal point := by
  obtain ⟨first, firstMember, second, secondMember, crosses, onFirst, onSecond⟩ :=
    corner.meets
  have total : ∀ place : K × K, dot (first.normal + second.normal) place =
      dot first.normal place + dot second.normal place := by
    intro place
    simp only [dot, Prod.fst_add, Prod.snd_add]
    ring
  refine ⟨first.normal + second.normal, fun other inside different => ?_⟩
  have belowFirst := inside first firstMember
  have belowSecond := inside second secondMember
  rw [HalfPlane.Contains] at belowFirst belowSecond
  rw [HalfPlane.Touches] at onFirst onSecond
  rw [total, total, onFirst, onSecond]
  refine (add_le_add belowFirst belowSecond).lt_of_ne fun level => different ?_
  refine eq_of_dot_eq crosses ?_ ?_
  · rw [onFirst]
    linarith
  · rw [onSecond]
    linarith

/-- Away from the corners some direction keeps to all boundary lines through the point. -/
theorem exists_free_direction (inside : point ∈ polygon sides)
    (noCorner : ¬ IsCorner sides point) :
    ∃ direction : K × K, direction ≠ 0 ∧
      ∀ side ∈ sides, side.Touches point → dot side.normal direction = 0 := by
  by_cases flat : ∀ side ∈ sides, side.Touches point → along side.normal = 0
  · refine ⟨(1, 0), fun same => one_ne_zero (congrArg Prod.fst same), ?_⟩
    intro side member touches
    have none : side.normal.1 = 0 := congrArg Prod.snd (flat side member touches)
    rw [dot, none]
    ring
  · push Not at flat
    obtain ⟨first, firstMember, firstTouches, turns⟩ := flat
    refine ⟨along first.normal, turns, fun second secondMember secondTouches => ?_⟩
    by_contra crosses
    exact noCorner ⟨inside, first, firstMember, second, secondMember, crosses, firstTouches,
      secondTouches⟩

/-- The extreme points of a polygon are its corners. -/
theorem mem_extremePoints_iff :
    point ∈ (polygon sides).extremePoints K ↔ IsCorner sides point := by
  refine ⟨fun extreme => ?_, IsCorner.mem_extremePoints⟩
  obtain ⟨inside, alone⟩ := extreme
  by_contra noCorner
  obtain ⟨direction, moves, free⟩ := exists_free_direction inside noCorner
  obtain ⟨ahead, aheadPositive, aheadStays⟩ := exists_room inside fun side member touches =>
    (free side member touches).le
  have backwards : ∀ side ∈ sides, side.Touches point →
      dot side.normal (-direction) ≤ 0 := by
    intro side member touches
    rw [dot_neg, free side member touches, neg_zero]
  obtain ⟨back, backPositive, backStays⟩ := exists_room inside backwards
  have between : point ∈ openSegment K (point + ahead • direction)
      (point + back • -direction) := by
    have positive : 0 < ahead + back := add_pos aheadPositive backPositive
    refine ⟨back / (ahead + back), ahead / (ahead + back), div_pos backPositive positive,
      div_pos aheadPositive positive, ?_, ?_⟩
    · field_simp
      ring
    · ext
      · simp only [Prod.fst_add, Prod.smul_fst, Prod.fst_neg, smul_eq_mul]
        field_simp
        ring
      · simp only [Prod.snd_add, Prod.smul_snd, Prod.snd_neg, smul_eq_mul]
        field_simp
        ring
  have stuck := alone aheadStays backStays between
  rw [add_eq_left, smul_eq_zero] at stuck
  exact stuck.elim aheadPositive.ne' moves

end Ordered

end OptimalPlans.Plane
