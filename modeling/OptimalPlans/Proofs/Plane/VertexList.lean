import OptimalPlans.Proofs.Plane.Tolerance

/-!
# The listed vertices

With exact coordinates, and a tolerance that separates what differs, every crossing of two
boundary lines is found, those outside the region are dropped, and the others are kept
once each.
-/

namespace OptimalPlans.Plane

/-! ## Separation -/

/-- A tolerance that tells lines that cross from parallel ones, crossings outside the
region from those in it, and two crossings from each other. -/
structure Separates (tolerance : Rat) (constraints : List (Constraint Rat)) : Prop where
  positive : 0 < tolerance
  slopes : ∀ first ∈ constraints, ∀ second ∈ constraints,
    first.det second ≠ 0 → tolerance ≤ |first.det second|
  violations : ∀ point, IsCrossing constraints point → ∀ constraint ∈ constraints,
    0 < constraint.excess point → tolerance < constraint.excess point
  apart : ∀ first second, IsCrossing constraints first → IsCrossing constraints second →
    first ≠ second → tolerance < |first.x - second.x| ∨ tolerance < |first.y - second.y|

/-- A finite form of separation: the crossings are those of the listed lines. -/
theorem separates_iff {tolerance : Rat} {constraints : List (Constraint Rat)} :
    Separates tolerance constraints ↔
      0 < tolerance ∧
      (∀ first ∈ constraints, ∀ second ∈ constraints, first.det second ≠ 0 →
        tolerance ≤ |first.det second|) ∧
      (∀ point ∈ crossings constraints, ∀ constraint ∈ constraints,
        0 < constraint.excess point → tolerance < constraint.excess point) ∧
      ∀ first ∈ crossings constraints, ∀ second ∈ crossings constraints, first ≠ second →
        tolerance < |first.x - second.x| ∨ tolerance < |first.y - second.y| := by
  simp only [mem_crossings]
  constructor
  · intro separates
    exact ⟨separates.positive, separates.slopes, separates.violations,
      fun first firstCrossing second => separates.apart first second firstCrossing⟩
  · rintro ⟨positive, slopes, violations, apart⟩
    exact ⟨positive, slopes, violations,
      fun first second firstCrossing => apart first firstCrossing second⟩

instance (tolerance : Rat) (constraints : List (Constraint Rat)) :
    Decidable (Separates tolerance constraints) :=
  decidable_of_iff _ separates_iff.symm

section Vertices

variable {constraints : List (Constraint Rat)} {tolerance : Rat}

/-! ## The vertices -/

/-- A separating tolerance finds every crossing of the boundary lines. -/
theorem Separates.mem_meetings_iff (separates : Separates tolerance constraints)
    {point : Point Rat} :
    point ∈ meetings tolerance constraints ↔ IsCrossing constraints point := by
  rw [Plane.mem_meetings_iff separates.positive]
  refine exists_congr fun first => and_congr_right fun firstMember =>
    exists_congr fun second => and_congr_right fun secondMember => and_congr_left fun _ => ?_
  constructor
  · intro far parallel
    rw [parallel, abs_zero] at far
    exact absurd separates.positive (not_lt.mpr far)
  · exact separates.slopes first firstMember second secondMember

/-- A separating tolerance lets no crossing pass outside the region. -/
theorem Separates.passes_iff (separates : Separates tolerance constraints) {point : Point Rat}
    (isCrossing : IsCrossing constraints point) :
    Passes tolerance constraints point ↔
      ∀ constraint ∈ constraints, constraint.excess point ≤ 0 := by
  refine forall₂_congr fun constraint member => ⟨fun within => ?_, fun holds =>
    holds.trans separates.positive.le⟩
  by_contra violates
  exact absurd within (not_le.mpr
    (separates.violations point isCrossing constraint member (not_le.mp violates)))

/-- Among points that are the same or apart, each is kept once. -/
theorem distinct_eq_ok {points : List (Point Rat)} (positive : 0 < tolerance)
    (apart : ∀ first ∈ points, ∀ second ∈ points, Near tolerance first second →
      first = second) :
    ∃ kept, distinct tolerance points = .ok kept ∧ kept.Nodup ∧
      ∀ point, point ∈ kept ↔ point ∈ points := by
  obtain ⟨kept, result, sublist, far, covered⟩ := distinct_keeps positive.le points
  refine ⟨kept, result, far.imp ?_, fun point => ⟨fun held => sublist.subset held, ?_⟩⟩
  · rintro first _ distant rfl
    exact distant (near_self positive.le first)
  · intro listed
    obtain ⟨other, held, near⟩ := covered point listed
    rwa [apart point listed other (sublist.subset held) near]

/-- The listed vertices are the crossings in the region, each once. -/
theorem feasibleVertices_eq_ok (separates : Separates tolerance constraints) :
    ∃ found, intersections constraints tolerance = .ok found ∧
      ∃ vertices, feasibleVertices constraints tolerance found = .ok vertices ∧
        vertices.Nodup ∧ ∀ point, point ∈ vertices ↔
          IsCrossing constraints point ∧
            ∀ constraint ∈ constraints, constraint.excess point ≤ 0 := by
  refine ⟨_, intersections_eq_meetings separates.positive constraints, ?_⟩
  let feasible := (meetings tolerance constraints).filter (Passes tolerance constraints)
  have members : ∀ point, point ∈ feasible ↔ IsCrossing constraints point ∧
      ∀ constraint ∈ constraints, constraint.excess point ≤ 0 := by
    intro point
    simp only [feasible, List.mem_filter, separates.mem_meetings_iff, decide_eq_true_iff]
    exact and_congr_right separates.passes_iff
  have apart : ∀ first ∈ feasible, ∀ second ∈ feasible, Near tolerance first second →
      first = second := by
    rintro first firstMember second secondMember ⟨horizontal, vertical⟩
    by_contra different
    rcases separates.apart first second ((members first).mp firstMember).1
      ((members second).mp secondMember).1 different with far | far
    · exact absurd horizontal (not_le.mpr far)
    · exact absurd vertical (not_le.mpr far)
  obtain ⟨vertices, kept, nodup, same⟩ := distinct_eq_ok separates.positive apart
  refine ⟨vertices, ?_, nodup, fun point => (same point).trans (members point)⟩
  rw [feasibleVertices_eq_distinct, kept]

end Vertices

end OptimalPlans.Plane
