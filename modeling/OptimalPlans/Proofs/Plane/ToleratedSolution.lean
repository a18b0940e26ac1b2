import OptimalPlans.Proofs.Plane.VertexEnumeration

/-!
# Solutions within a tolerance

Without any separation the vertices of a solution still answer for the points that the
tolerance admits: they violate no constraint by more than the tolerance, they are far from
each other, and every admitted point is near one of them.  Which points are dropped depends
on the order of the constraints, and the best admitted point may be among them.  But a point
near it is listed, and there the objective is smaller by no more than the tolerance times
the absolute values of the coefficients.
-/

namespace OptimalPlans.Plane

/-! ## Admitted points -/

/-- The common points of two boundary lines that a tolerance tells from parallel ones, as
far as it lets them pass as points of the region. -/
def Admits (tolerance : Rat) (constraints : List (Constraint Rat)) (point : Point Rat) : Prop :=
  (∃ first ∈ constraints, ∃ second ∈ constraints, tolerance ≤ |first.det second| ∧
    first.OnBoundary point ∧ second.OnBoundary point) ∧
  Passes tolerance constraints point

section Solutions

variable {program : Program Rat} {tolerance : Rat} {solution : Solution Rat}

theorem mem_admitted_iff (positive : 0 < tolerance) {constraints : List (Constraint Rat)}
    {point : Point Rat} :
    point ∈ (meetings tolerance constraints).filter (Passes tolerance constraints) ↔
      Admits tolerance constraints point := by
  rw [List.mem_filter, mem_meetings_iff positive, decide_eq_true_iff]
  rfl

/-- The vertices of a solution are the admitted points that are kept, and the best one is
the first of the best. -/
theorem vertices_of_solved (positive : 0 < tolerance)
    (solved : (solve program tolerance).result = .ok (.solved solution)) :
    ∃ kept : List (Point Rat),
      (∀ point ∈ kept, Admits tolerance (program.constraints ++ nonNegativity) point) ∧
      (kept.Pairwise fun first second => ¬ Near tolerance first second) ∧
      (∀ point, Admits tolerance (program.constraints ++ nonNegativity) point →
        ∃ other ∈ kept, Near tolerance point other) ∧
      solution.vertices = kept.map (fun point =>
        ⟨point, objectiveValue program.objective point⟩) ∧
      FirstBest (fun evaluated => program.sign * evaluated.value) solution.vertices
        solution.best := by
  cases planar : (Number.integer 2).less program.unknowns with
  | true =>
      simp only [solve, planar, if_true, Journal.result_pure] at solved
      cases Except.ok.inj solved
  | false =>
      have crossings := intersections_eq_meetings positive (program.constraints ++ nonNegativity)
      obtain ⟨kept, result, sublist, apart, covered⟩ := distinct_keeps positive.le
        ((meetings tolerance (program.constraints ++ nonNegativity)).filter
          (Passes tolerance (program.constraints ++ nonNegativity)))
      have feasible := (feasibleVertices_eq_distinct tolerance
        (program.constraints ++ nonNegativity) _).trans result
      have some_vertex : kept ≠ [] := by
        rintro rfl
        rw [solve_infeasible planar crossings feasible] at solved
        cases Except.ok.inj solved
      obtain ⟨drawn, drawnResult, evaluated, isBest⟩ :=
        solve_solved planar crossings feasible some_vertex
      rw [solved] at drawnResult
      obtain rfl : solution = drawn := Outcome.solved.inj (Except.ok.inj drawnResult)
      exact ⟨kept, fun point member => (mem_admitted_iff positive).mp (sublist.subset member),
        apart, fun point admitted => covered point ((mem_admitted_iff positive).mpr admitted),
        evaluated, isBest⟩

/-! ## The objective -/

/-- The most by which the objective changes when no coordinate changes by more than one. -/
def steepness (objective : List Rat) : Rat :=
  |(objective[0]?).getD 0| + |(objective[1]?).getD 0|

theorem objectiveValue_near (objective : List Rat) {first second : Point Rat}
    (near : Near tolerance first second) :
    |objectiveValue objective first - objectiveValue objective second| ≤
      tolerance * steepness objective := by
  obtain ⟨horizontal, vertical⟩ := near
  let c := (objective[0]?).getD 0
  let d := (objective[1]?).getD 0
  calc |objectiveValue objective first - objectiveValue objective second|
      = |c * (first.x - second.x) + d * (first.y - second.y)| := by
        congr 1
        simp only [objectiveValue, c, d]
        ring
    _ ≤ |c| * |first.x - second.x| + |d| * |first.y - second.y| := by
        rw [← abs_mul, ← abs_mul]
        exact abs_add_le _ _
    _ ≤ |c| * tolerance + |d| * tolerance :=
        add_le_add (mul_le_mul_of_nonneg_left horizontal (abs_nonneg c))
          (mul_le_mul_of_nonneg_left vertical (abs_nonneg d))
    _ = tolerance * steepness objective := by
        simp only [steepness, c, d]
        ring

/-- The best of some values: the greatest or the least one, as the program asks. -/
def Program.IsBestOf (program : Program Rat) (values : Set Rat) (value : Rat) : Prop :=
  if program.maximize then IsGreatest values value else IsLeast values value

theorem isBestOf_iff {values : Set Rat} {value : Rat} :
    program.IsBestOf values value ↔
      value ∈ values ∧ ∀ other ∈ values, program.sign * other ≤ program.sign * value := by
  unfold Program.IsBestOf Program.sign
  cases program.maximize with
  | true => simp [IsGreatest, upperBounds]
  | false => simp [IsLeast, lowerBounds]

theorem abs_sign (program : Program Rat) : |program.sign| = 1 := by
  unfold Program.sign
  split <;> simp

/-- Some admitted point is best among all of them. -/
theorem exists_best_admitted (program : Program Rat) (positive : 0 < tolerance)
    {constraints : List (Constraint Rat)} {point : Point Rat}
    (admitted : Admits tolerance constraints point) :
    ∃ optimum, Admits tolerance constraints optimum ∧
      program.IsBestOf
        (objectiveValue program.objective '' {point | Admits tolerance constraints point})
        (objectiveValue program.objective optimum) := by
  let points := (meetings tolerance constraints).filter (Passes tolerance constraints)
  have listed : point ∈ points.toFinset :=
    List.mem_toFinset.mpr ((mem_admitted_iff positive).mpr admitted)
  obtain ⟨optimum, member, greatest⟩ := points.toFinset.exists_max_image
    (fun point => program.sign * objectiveValue program.objective point) ⟨point, listed⟩
  have optimumAdmitted := (mem_admitted_iff positive).mp (List.mem_toFinset.mp member)
  refine ⟨optimum, optimumAdmitted, isBestOf_iff.mpr ⟨⟨optimum, optimumAdmitted, rfl⟩, ?_⟩⟩
  rintro _ ⟨other, otherAdmitted, rfl⟩
  exact greatest other (List.mem_toFinset.mpr ((mem_admitted_iff positive).mpr otherAdmitted))

/-- A value that is not better than another, and that comes within some margin of it. -/
theorem abs_sub_le_of_signed {value other margin : Rat}
    (behind : program.sign * value ≤ program.sign * other)
    (close : program.sign * other ≤ program.sign * value + margin) :
    |value - other| ≤ margin := by
  have signed : |value - other| = |program.sign * value - program.sign * other| := by
    rw [← mul_sub, abs_mul, abs_sign, one_mul]
  rw [signed, abs_le]
  constructor <;> linarith

end Solutions

/-- Whatever the tolerance, the vertices of a solution satisfy every constraint within it, and
any two of them are farther apart than it in some coordinate.  Every common point of two
boundary lines that is admitted lies near a vertex.  The best vertex is the first with the
best value listed, and this value is behind the best one of all admitted points by no more
than the tolerance times the steepness of the objective. -/
theorem solution_within_tolerance {program : Program Rat} {tolerance : Rat}
    (positive : 0 < tolerance) {solution : Solution Rat}
    (solved : (solve program tolerance).result = .ok (.solved solution)) :
    (∀ vertex ∈ solution.vertices,
      vertex.value = objectiveValue program.objective vertex.point ∧
        ∀ constraint ∈ program.constraints ++ nonNegativity,
          constraint.excess vertex.point ≤ tolerance) ∧
    (solution.vertices.Pairwise fun first second =>
      tolerance < |first.point.x - second.point.x| ∨
        tolerance < |first.point.y - second.point.y|) ∧
    (∀ point, Admits tolerance (program.constraints ++ nonNegativity) point →
      ∃ vertex ∈ solution.vertices, |point.x - vertex.point.x| ≤ tolerance ∧
        |point.y - vertex.point.y| ≤ tolerance) ∧
    (∃ optimum, Admits tolerance (program.constraints ++ nonNegativity) optimum ∧
      program.IsBestOf (objectiveValue program.objective ''
          {point | Admits tolerance (program.constraints ++ nonNegativity) point})
        (objectiveValue program.objective optimum) ∧
      |solution.best.value - objectiveValue program.objective optimum| ≤
        tolerance * steepness program.objective) ∧
    program.IsBestOf {value | ∃ vertex ∈ solution.vertices, vertex.value = value}
      solution.best.value ∧
    ∃ before after, solution.vertices = before ++ solution.best :: after ∧
      ∀ vertex ∈ before, vertex.value ≠ solution.best.value := by
  obtain ⟨kept, admitted, apart, covered, evaluated, isBest⟩ := vertices_of_solved positive solved
  have listed : ∀ vertex, vertex ∈ solution.vertices ↔
      ∃ point ∈ kept, ⟨point, objectiveValue program.objective point⟩ = vertex := by
    intro vertex
    rw [evaluated, List.mem_map]
  refine ⟨fun vertex member => ?_, ?_, fun point pointAdmitted => ?_, ?_, ?_, ?_⟩
  · obtain ⟨point, pointKept, rfl⟩ := (listed vertex).mp member
    exact ⟨rfl, (admitted point pointKept).2⟩
  · rw [evaluated, List.pairwise_map]
    refine apart.imp fun far => ?_
    rwa [Near, not_and_or, not_le, not_le] at far
  · obtain ⟨other, otherKept, near⟩ := covered point pointAdmitted
    exact ⟨_, (listed _).mpr ⟨other, otherKept, rfl⟩, near⟩
  · obtain ⟨chosen, chosenKept, chosenBest⟩ := (listed _).mp isBest.mem
    obtain ⟨optimum, optimumAdmitted, best⟩ :=
      exists_best_admitted program positive (admitted chosen chosenKept)
    refine ⟨optimum, optimumAdmitted, best, ?_⟩
    obtain ⟨other, otherKept, near⟩ := covered optimum optimumAdmitted
    have behind := (isBestOf_iff.mp best).2 _ ⟨chosen, admitted chosen chosenKept, rfl⟩
    have ahead := isBest.greatest _ ((listed _).mpr ⟨other, otherKept, rfl⟩)
    have margin : program.sign * (objectiveValue program.objective optimum -
        objectiveValue program.objective other) ≤ tolerance * steepness program.objective := by
      refine (le_abs_self _).trans ?_
      rw [abs_mul, abs_sign, one_mul]
      exact objectiveValue_near program.objective near
    rw [← chosenBest] at ahead ⊢
    exact abs_sub_le_of_signed behind (by linarith)
  · refine isBestOf_iff.mpr ⟨⟨_, isBest.mem, rfl⟩, ?_⟩
    rintro _ ⟨vertex, member, rfl⟩
    exact isBest.greatest vertex member
  · obtain ⟨before, after, split, below⟩ := isBest.earliest
    refine ⟨before, after, split, fun vertex member same => ?_⟩
    have lower := below vertex member
    rw [same] at lower
    exact lt_irrefl _ lower

/-- A program over a strip whose right side is drawn twice, the second line a little farther
out. -/
def doubledSide : Program Rat where
  unknowns := .integer 2
  objective := [1, 0]
  maximize := true
  constraints := [⟨1, 0, .atMost, 1⟩, ⟨1, 0, .atMost, 21 / 20⟩, ⟨0, 1, .atMost, 1⟩]

/-- The best value of an outcome, if there is one. -/
def Outcome.bestValue? : Outcome Rat → Option Rat
  | .solved solution => some solution.best.value
  | _ => none

theorem solved_of_bestValue? {result : Except Fault (Outcome Rat)} {value : Rat}
    (best : result.map Outcome.bestValue? = .ok (some value)) :
    ∃ solution, result = .ok (.solved solution) ∧ solution.best.value = value := by
  cases result with
  | error fault => cases best
  | ok outcome =>
      cases outcome with
      | solved solution => exact ⟨solution, rfl, Option.some.inj (Except.ok.inj best)⟩
      | tooManyVariables => cases best
      | infeasible => cases best

/-- The outer line has the best admitted points, and they are dropped. -/
theorem doubledSide_solution_is_close :
    ∃ solution, (solve doubledSide (1 / 10)).result = .ok (.solved solution) ∧
      solution.best.value = 1 ∧
      Admits (1 / 10) (doubledSide.constraints ++ nonNegativity) ⟨21 / 20, 1⟩ ∧
      ∃ vertex ∈ solution.vertices, |21 / 20 - vertex.point.x| ≤ 1 / 10 ∧
        |1 - vertex.point.y| ≤ 1 / 10 := by
  have admitted : Admits (1 / 10) (doubledSide.constraints ++ nonNegativity) ⟨21 / 20, 1⟩ := by
    refine ⟨⟨⟨1, 0, .atMost, 21 / 20⟩, by simp [doubledSide], ⟨0, 1, .atMost, 1⟩,
      by simp [doubledSide], ?_, ?_, ?_⟩, by decide +kernel⟩
    · norm_num [Constraint.det]
    · norm_num [Constraint.OnBoundary, Constraint.value]
    · norm_num [Constraint.OnBoundary, Constraint.value]
  have value : (solve doubledSide (1 / 10)).result.map Outcome.bestValue? = .ok (some 1) := by
    decide +kernel
  obtain ⟨solution, solved, best⟩ := solved_of_bestValue? value
  have close := solution_within_tolerance (by norm_num) solved
  have near := close.2.2.1 ⟨21 / 20, 1⟩ admitted
  exact ⟨solution, solved, best, admitted, near⟩

end OptimalPlans.Plane
