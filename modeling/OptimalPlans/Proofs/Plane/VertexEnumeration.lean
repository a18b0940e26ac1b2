import OptimalPlans.Proofs.Plane.VertexList

/-!
# Enumerating the vertices solves a program

The listed vertices are the extreme points of the region.  There are none only when the
region is empty, and a goal that is bounded on the region is best at one of them, so the
first of the best vertices is an optimum.
-/

namespace OptimalPlans.Plane

/-! ## Hulls -/

theorem dropTurns_succeeds (point : Point Rat) (points : List (Point Rat)) :
    ∃ kept, dropTurns point points = .ok kept := by
  induction points with
  | nil => exact ⟨[], rfl⟩
  | cons top rest induction =>
      cases rest with
      | nil => exact ⟨[top], rfl⟩
      | cons below rest =>
          obtain ⟨amount, turned⟩ : ∃ amount, turn below top point = .ok amount := ⟨_, rfl⟩
          by_cases drops : amount ≤ 0
          · obtain ⟨kept, result⟩ := induction
            exact ⟨kept, by simp [dropTurns, turned, drops, result]⟩
          · exact ⟨top :: below :: rest, by simp [dropTurns, turned, drops]⟩

theorem chain_succeeds (points : List (Point Rat)) : ∃ kept, chain points = .ok kept := by
  have run : ∃ kept, chain points = .ok kept ∧ True := by
    unfold chain
    apply foldlM_invariant fun _ _ => True
    · trivial
    · intro seen point done _ _
      obtain ⟨kept, result⟩ := dropTurns_succeeds point done
      exact ⟨point :: kept, by simp [result], trivial⟩
  obtain ⟨kept, result, _⟩ := run
  exact ⟨kept, result⟩

theorem precedes_succeeds (left right : Point Rat) :
    ∃ answer, Point.precedes left right = .ok answer := by
  unfold Point.precedes Scalar.precedes
  split
  · split
    · exact ⟨_, rfl⟩
    · exact ⟨_, rfl⟩
  · exact ⟨_, rfl⟩

theorem convexHull_succeeds (points : List (Point Rat)) :
    ∃ hull, convexHull points = .ok hull := by
  unfold convexHull
  split
  · exact ⟨points, rfl⟩
  · choose below agrees using precedes_succeeds
    obtain ⟨ordered, sorted, _⟩ := Scalar.sortBy_eq_ok agrees points
    obtain ⟨lower, lowerOk⟩ := chain_succeeds ordered
    obtain ⟨upper, upperOk⟩ := chain_succeeds ordered.reverse
    exact ⟨_, by rw [sorted, ok_bind, lowerOk, ok_bind, upperOk]; rfl⟩

/-! ## The best value -/

/-- The first of the values with the greatest key. -/
structure FirstBest {β : Type} (key : β → Rat) (values : List β) (chosen : β) : Prop where
  earliest : ∃ before after, values = before ++ chosen :: after ∧
    ∀ value ∈ before, key value < key chosen
  greatest : ∀ value ∈ values, key value ≤ key chosen

theorem FirstBest.mem {β : Type} {key : β → Rat} {values : List β} {chosen : β}
    (first : FirstBest key values chosen) : chosen ∈ values := by
  obtain ⟨before, after, rfl, _⟩ := first.earliest
  simp

theorem pick_firstBest {β : Type} {key : β → Rat} {beats : β → β → Except Fault Bool}
    (agrees : ∀ left right, beats left right = .ok (decide (key right < key left)))
    (best : β) (values : List β) :
    ∃ chosen, Scalar.pick beats best values = .ok chosen ∧
      FirstBest key (best :: values) chosen := by
  induction values generalizing best with
  | nil => exact ⟨best, rfl, ⟨[], [], rfl, by simp⟩, by simp⟩
  | cons value rest induction =>
      by_cases beaten : key best < key value
      · obtain ⟨chosen, result, ⟨before, after, split, below⟩, greatest⟩ := induction value
        have ahead : key best < key chosen :=
          beaten.trans_le (greatest value List.mem_cons_self)
        refine ⟨chosen, by simp [Scalar.pick, agrees, beaten, result], ?_,
          List.forall_mem_cons.mpr ⟨ahead.le, greatest⟩⟩
        refine ⟨best :: before, after, ?_, List.forall_mem_cons.mpr ⟨ahead, below⟩⟩
        rw [split]
        rfl
      · obtain ⟨chosen, result, ⟨before, after, split, below⟩, greatest⟩ := induction best
        have behind : key value ≤ key chosen :=
          (not_lt.mp beaten).trans (greatest best List.mem_cons_self)
        refine ⟨chosen, by simp [Scalar.pick, agrees, beaten, result], ?_, ?_⟩
        · cases before with
          | nil =>
              obtain ⟨rfl, rfl⟩ := List.cons.inj split
              exact ⟨[], value :: rest, rfl, by simp⟩
          | cons start before =>
              obtain ⟨rfl, rfl⟩ := List.cons.inj split
              have ahead := below best List.mem_cons_self
              refine ⟨best :: value :: before, after, rfl, ?_⟩
              refine List.forall_mem_cons.mpr ⟨ahead, List.forall_mem_cons.mpr
                ⟨(not_lt.mp beaten).trans_lt ahead, ?_⟩⟩
              exact fun other member => below other (List.mem_cons_of_mem _ member)
        · obtain ⟨bestBelow, restBelow⟩ := List.forall_mem_cons.mp greatest
          exact List.forall_mem_cons.mpr ⟨bestBelow, List.forall_mem_cons.mpr
            ⟨behind, restBelow⟩⟩

/-! ## The goal -/

/-- The coefficients of the objective; missing ones are zero. -/
def goal (K : Type) [Field K] (objective : List Rat) : K × K :=
  (((objective[0]?).getD 0 : Rat), ((objective[1]?).getD 0 : Rat))

/-- The value of the objective at a rational point. -/
def objectiveValue (objective : List Rat) (point : Point Rat) : Rat :=
  (objective[0]?).getD 0 * point.x + (objective[1]?).getD 0 * point.y

theorem evaluate_eq_ok (objective : List Rat) (point : Point Rat) :
    evaluate objective point = .ok ⟨point, objectiveValue objective point⟩ := by
  simp [evaluate, objectiveValue]

namespace Program

variable (program : Program Rat) (K : Type) [Field K] [LinearOrder K]

/-- The values that the objective takes over the region. -/
def values : Set K :=
  dot (goal K program.objective) '' region K program.constraints

/-- The objective is bounded in the direction in which it is improved. -/
def BoundedOver : Prop :=
  if program.maximize then BddAbove (program.values K) else BddBelow (program.values K)

/-- The best value that the objective takes over the region. -/
def IsOptimum (value : K) : Prop :=
  if program.maximize then IsGreatest (program.values K) value
  else IsLeast (program.values K) value

/-- The sign that turns the best value into the greatest one. -/
def sign : Rat :=
  if program.maximize then 1 else -1

end Program

section Optimum

variable {K : Type} [Field K] [LinearOrder K] [IsStrictOrderedRing K]
  {program : Program Rat} {tolerance : Rat}

omit [LinearOrder K] [IsStrictOrderedRing K] in
theorem dot_goal [CharZero K] (objective : List Rat) (point : Point Rat) :
    dot (goal K objective) (point.cast K) = (objectiveValue objective point : Rat) := by
  simp [dot, goal, Point.cast, objectiveValue]

omit [LinearOrder K] [IsStrictOrderedRing K] in
theorem dot_signed (point : K × K) :
    dot ((program.sign : K) • goal K program.objective) point =
      program.sign * dot (goal K program.objective) point := by
  simp only [dot, Prod.smul_fst, Prod.smul_snd, smul_eq_mul]
  ring

theorem bddAbove_signed (bounded : program.BoundedOver K) :
    BddAbove (dot ((program.sign : K) • goal K program.objective) ''
      region K program.constraints) := by
  unfold Program.BoundedOver at bounded
  split at bounded
  case isTrue maximize =>
    obtain ⟨bound, above⟩ := bounded
    refine ⟨bound, ?_⟩
    rintro _ ⟨point, inside, rfl⟩
    rw [dot_signed, Program.sign, if_pos maximize, Rat.cast_one, one_mul]
    exact above ⟨point, inside, rfl⟩
  case isFalse minimize =>
    obtain ⟨bound, below⟩ := bounded
    refine ⟨-bound, ?_⟩
    rintro _ ⟨point, inside, rfl⟩
    rw [dot_signed, Program.sign, if_neg minimize, Rat.cast_neg, Rat.cast_one, neg_one_mul]
    exact neg_le_neg (below ⟨point, inside, rfl⟩)

theorem isOptimum_of_signed {place : K × K} (inside : place ∈ region K program.constraints)
    (above : ∀ other ∈ region K program.constraints,
      program.sign * dot (goal K program.objective) other ≤
        program.sign * dot (goal K program.objective) place) :
    program.IsOptimum K (dot (goal K program.objective) place) := by
  unfold Program.IsOptimum
  split
  case isTrue maximize =>
    refine ⟨⟨place, inside, rfl⟩, ?_⟩
    rintro _ ⟨other, otherInside, rfl⟩
    have lower := above other otherInside
    rwa [Program.sign, if_pos maximize, Rat.cast_one, one_mul, one_mul] at lower
  case isFalse minimize =>
    refine ⟨⟨place, inside, rfl⟩, ?_⟩
    rintro _ ⟨other, otherInside, rfl⟩
    have lower := above other otherInside
    rw [Program.sign, if_neg minimize, Rat.cast_neg, Rat.cast_one, neg_one_mul,
      neg_one_mul] at lower
    exact neg_le_neg_iff.mp lower

theorem best_firstBest (program : Program Rat) (first : Evaluated Rat)
    (rest : List (Evaluated Rat)) :
    ∃ chosen, best program.maximize first rest = .ok chosen ∧
      FirstBest (fun evaluated => program.sign * evaluated.value) (first :: rest)
        chosen := by
  apply pick_firstBest
  intro left right
  cases direction : program.maximize with
  | true => simp [Program.sign, direction]
  | false => simp [Program.sign, direction]

/-! ## Runs -/

section Runs

variable {found : List (Point Rat)}
  (planar : (Number.integer 2).less program.unknowns = false)
  (crossings : intersections (program.constraints ++ nonNegativity) tolerance = .ok found)

include planar crossings

theorem solve_infeasible
    (feasible : feasibleVertices (program.constraints ++ nonNegativity) tolerance found =
      .ok []) :
    (solve program tolerance).result = .ok .infeasible := by
  unfold solve
  rw [planar]
  simp only [Bool.false_eq_true, if_false, Journal.result_bind, Journal.result_monadLift,
    crossings, feasible, ok_bind, Journal.result_note]
  rfl

/-- A run with a vertex lists all of them, chooses the first of the best ones and draws
their hull. -/
theorem solve_draws {vertices : List (Point Rat)}
    (feasible : feasibleVertices (program.constraints ++ nonNegativity) tolerance found =
      .ok vertices) (some_vertex : vertices ≠ []) :
    ∃ solution, (solve program tolerance).result = .ok (.solved solution) ∧
      solution.vertices = vertices.map (fun point =>
        ⟨point, objectiveValue program.objective point⟩) ∧
      FirstBest (fun evaluated => program.sign * evaluated.value) solution.vertices
        solution.best ∧
      convexHull vertices = .ok solution.region := by
  have evaluated : vertices.mapM (evaluate program.objective) =
      .ok (vertices.map fun point => ⟨point, objectiveValue program.objective point⟩) :=
    mapM_eq_ok fun point _ => evaluate_eq_ok program.objective point
  obtain ⟨hull, hullOk⟩ := convexHull_succeeds vertices
  cases listed : vertices.map fun point =>
      (⟨point, objectiveValue program.objective point⟩ : Evaluated Rat) with
  | nil => exact absurd (List.map_eq_nil_iff.mp listed) some_vertex
  | cons first rest =>
      obtain ⟨chosen, chosenOk, isBest⟩ := best_firstBest program first rest
      refine ⟨⟨first :: rest, chosen, program.maximize, program.constraints ++ nonNegativity,
        hull⟩, ?_, rfl, isBest, hullOk⟩
      rw [listed] at evaluated
      unfold solve
      rw [planar]
      simp only [Bool.false_eq_true, if_false, Journal.result_bind, Journal.result_monadLift,
        crossings, feasible, evaluated, ok_bind, Journal.result_note, chosenOk, hullOk]
      rfl

theorem solve_solved {vertices : List (Point Rat)}
    (feasible : feasibleVertices (program.constraints ++ nonNegativity) tolerance found =
      .ok vertices) (some_vertex : vertices ≠ []) :
    ∃ solution, (solve program tolerance).result = .ok (.solved solution) ∧
      solution.vertices = vertices.map (fun point =>
        ⟨point, objectiveValue program.objective point⟩) ∧
      FirstBest (fun evaluated => program.sign * evaluated.value) solution.vertices
        solution.best := by
  obtain ⟨solution, result, evaluated, isBest, _⟩ :=
    solve_draws planar crossings feasible some_vertex
  exact ⟨solution, result, evaluated, isBest⟩

end Runs

/-! ## The region and its vertices -/

theorem mem_vertices_iff {vertices : List (Point Rat)}
    (members : ∀ point, point ∈ vertices ↔
      IsCrossing (program.constraints ++ nonNegativity) point ∧
        ∀ constraint ∈ program.constraints ++ nonNegativity, constraint.excess point ≤ 0)
    (point : Point Rat) :
    point ∈ vertices ↔ IsCrossing (program.constraints ++ nonNegativity) point ∧
      point.cast K ∈ region K program.constraints := by
  rw [members, ← holds_nonNegativity]
  simp only [holds_cast]

theorem extremePoints_eq_vertices {vertices : List (Point Rat)}
    (listed : ∀ point, point ∈ vertices ↔
      IsCrossing (program.constraints ++ nonNegativity) point ∧
        point.cast K ∈ region K program.constraints)
    (value : Point Rat → Rat) :
    (region K program.constraints).extremePoints K =
      {place | ∃ vertex ∈ vertices.map fun point => (⟨point, value point⟩ : Evaluated Rat),
        place = vertex.point.cast K} := by
  rw [extremePoints_region]
  ext place
  constructor
  · rintro ⟨inside, point, isCrossing, rfl⟩
    exact ⟨_, List.mem_map_of_mem ((listed point).mpr ⟨isCrossing, inside⟩), rfl⟩
  · rintro ⟨vertex, member, rfl⟩
    obtain ⟨point, pointMember, rfl⟩ := List.mem_map.mp member
    obtain ⟨isCrossing, inside⟩ := (listed point).mp pointMember
    exact ⟨inside, point, isCrossing, rfl⟩

/-- A region with a point has a crossing in it. -/
theorem exists_crossing {constraints : List (Constraint Rat)}
    (nonempty : (region K constraints).Nonempty) :
    ∃ point, IsCrossing (constraints ++ nonNegativity) point ∧
      point.cast K ∈ region K constraints := by
  obtain ⟨place, inside⟩ := nonempty
  have level : ∀ other : K × K, dot (0 : K × K) other = 0 := by
    intro other
    simp [dot]
  have bounded : BddAbove (dot (0 : K × K) '' region K constraints) := by
    refine ⟨0, ?_⟩
    rintro _ ⟨other, _, rfl⟩
    exact (level other).le
  obtain ⟨point, isCrossing, pointInside, _⟩ := exists_crossing_above inside bounded
  exact ⟨point, isCrossing, pointInside⟩

/-- The first of the best vertices is an optimum of a bounded objective. -/
theorem isOptimum_of_firstBest {vertices : List (Point Rat)} {chosen : Evaluated Rat}
    (listed : ∀ point, point ∈ vertices ↔
      IsCrossing (program.constraints ++ nonNegativity) point ∧
        point.cast K ∈ region K program.constraints)
    (isBest : FirstBest (fun evaluated => program.sign * evaluated.value)
      (vertices.map fun point => ⟨point, objectiveValue program.objective point⟩) chosen)
    (bounded : program.BoundedOver K) : program.IsOptimum K (chosen.value : K) := by
  obtain ⟨place, member, rfl⟩ := List.mem_map.mp isBest.mem
  have inside := ((listed place).mp member).2
  rw [← dot_goal]
  refine isOptimum_of_signed inside fun other otherInside => ?_
  obtain ⟨point, isCrossing, pointInside, above⟩ :=
    exists_crossing_above otherInside (bddAbove_signed bounded)
  rw [dot_signed, dot_signed] at above
  refine above.trans ?_
  have lower := isBest.greatest _
    (List.mem_map_of_mem ((listed point).mpr ⟨isCrossing, pointInside⟩))
  rw [dot_goal, dot_goal]
  exact_mod_cast lower

end Optimum

/-- A program in the plane is infeasible exactly when its region is empty.  Otherwise its
vertices are the extreme points of the region, each listed once, and the best one is the
first at which a bounded objective takes its best value over the region. -/
theorem solve_finds_extreme_points (K : Type) [Field K] [LinearOrder K]
    [IsStrictOrderedRing K] {program : Program Rat} {tolerance : Rat}
    (planar : (Number.integer 2).less program.unknowns = false)
    (separates : Separates tolerance (program.constraints ++ nonNegativity)) :
    ((solve program tolerance).result = .ok .infeasible ↔
      region K program.constraints = ∅) ∧
    ((region K program.constraints).Nonempty →
      ∃ solution, (solve program tolerance).result = .ok (.solved solution) ∧
        (solution.vertices.map (·.point)).Nodup ∧
        (region K program.constraints).extremePoints K =
          {place | ∃ vertex ∈ solution.vertices, place = vertex.point.cast K} ∧
        (∀ vertex ∈ solution.vertices,
          vertex.value = objectiveValue program.objective vertex.point) ∧
        (program.BoundedOver K →
          program.IsOptimum K (solution.best.value : K) ∧
          ∃ before after, solution.vertices = before ++ solution.best :: after ∧
            ∀ vertex ∈ before, vertex.value ≠ solution.best.value)) := by
  obtain ⟨found, crossings, vertices, feasible, nodup, members⟩ :=
    feasibleVertices_eq_ok separates
  have listed : ∀ point, point ∈ vertices ↔
      _ ∧ point.cast K ∈ region K program.constraints := mem_vertices_iff members
  have solved : (region K program.constraints).Nonempty → vertices ≠ [] := by
    intro nonempty
    obtain ⟨point, isCrossing, inside⟩ := exists_crossing nonempty
    exact List.ne_nil_of_mem ((listed point).mpr ⟨isCrossing, inside⟩)
  refine ⟨⟨fun infeasible => ?_, fun empty => ?_⟩, fun nonempty => ?_⟩
  · by_contra inhabited
    obtain ⟨solution, result, _⟩ := solve_solved planar crossings feasible
      (solved (Set.nonempty_iff_ne_empty.mpr inhabited))
    rw [result] at infeasible
    cases infeasible
  · have none : vertices = [] := by
      refine List.eq_nil_iff_forall_not_mem.mpr fun point member => ?_
      have inside := ((listed point).mp member).2
      rw [empty] at inside
      exact inside
    rw [none] at feasible
    exact solve_infeasible planar crossings feasible
  · obtain ⟨solution, result, evaluated, isBest⟩ :=
      solve_solved planar crossings feasible (solved nonempty)
    refine ⟨solution, result, ?_, ?_, ?_, fun bounded => ⟨?_, ?_⟩⟩
    · have points : solution.vertices.map (·.point) = vertices := by
        rw [evaluated, List.map_map]
        exact List.map_id vertices
      rw [points]
      exact nodup
    · rw [evaluated]
      exact extremePoints_eq_vertices listed _
    · rw [evaluated]
      intro vertex member
      obtain ⟨point, _, rfl⟩ := List.mem_map.mp member
      rfl
    · rw [evaluated] at isBest
      exact isOptimum_of_firstBest listed isBest bounded
    · obtain ⟨before, after, split, below⟩ := isBest.earliest
      refine ⟨before, after, split, fun vertex member same => ?_⟩
      have lower := below vertex member
      rw [same] at lower
      exact lt_irrefl _ lower

/-- A program over a triangle, the third line only touching it. -/
def triangle : Program Rat where
  unknowns := .integer 2
  objective := [3, 2]
  maximize := true
  constraints := [⟨1, 1, .atMost, 4⟩, ⟨1, 0, .atMost, 4⟩]

theorem triangle_is_solved :
    ∃ solution, (solve triangle (1 / 1000)).result = .ok (.solved solution) ∧
      triangle.IsOptimum Rat solution.best.value ∧
      (region Rat triangle.constraints).extremePoints Rat =
        {place | ∃ vertex ∈ solution.vertices, place = vertex.point.cast Rat} := by
  have separates : Separates (1 / 1000) (triangle.constraints ++ nonNegativity) := by
    decide +kernel
  have nonempty : (region Rat triangle.constraints).Nonempty := by
    refine ⟨(0, 0), le_refl 0, le_refl 0, ?_⟩
    simp [triangle, Constraint.Holds]
  have bounded : triangle.BoundedOver Rat := by
    refine ⟨12, ?_⟩
    rintro _ ⟨place, ⟨_, up, holds⟩, rfl⟩
    have first := holds ⟨1, 1, .atMost, 4⟩ (by simp [triangle])
    simp only [Constraint.Holds] at first
    norm_num [dot, goal, triangle] at first ⊢
    linarith
  obtain ⟨_, solved⟩ := solve_finds_extreme_points Rat
    (show (Number.integer 2).less triangle.unknowns = false by decide) separates
  obtain ⟨solution, result, _, extreme, _, optimum⟩ := solved nonempty
  exact ⟨solution, result, (optimum bounded).1, extreme⟩

end OptimalPlans.Plane
