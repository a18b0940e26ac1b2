import OptimalPlans.Proofs.Plane.ConvexHull
import OptimalPlans.Proofs.Plane.VertexEnumeration

/-!
# The drawn region

Every vertex of a program is a corner of its region, so some linear form prefers it to all
the others and no hull of the vertices leaves it out.  The region that is drawn therefore
lists all vertices, counter-clockwise.
-/

namespace OptimalPlans.Plane

variable {program : Program Rat} {tolerance : Rat} {solution : Solution Rat}

/-- Every crossing in the region is exposed among them. -/
theorem exists_exposed {constraints : List (Constraint Rat)} {vertices : List (Point Rat)}
    (listed : ∀ point, point ∈ vertices ↔ IsCrossing (constraints ++ nonNegativity) point ∧
      point.cast Rat ∈ region Rat constraints) :
    ∀ point ∈ vertices, ∃ normal, Exposed normal vertices point := by
  intro point member
  obtain ⟨isCrossing, inside⟩ := (listed point).mp member
  have corner := isCorner_iff.mpr ⟨inside, point, isCrossing, rfl⟩
  obtain ⟨normal, further⟩ := corner.exists_normal
  refine ⟨normal, fun other otherMember different => ?_⟩
  have otherInside := ((listed other).mp otherMember).2
  rw [← polygon_sides] at otherInside
  have less := further (other.cast Rat) otherInside (cast_injective.ne different)
  rwa [dot_cast_eq_reach, dot_cast_eq_reach] at less

/-- A program that is solved has vertices, and their hull is drawn. -/
theorem drawn_of_solved
    (separates : Separates tolerance (program.constraints ++ nonNegativity))
    (solved : (solve program tolerance).result = .ok (.solved solution)) :
    ∃ vertices : List (Point Rat), vertices.Nodup ∧
      (∀ point, point ∈ vertices ↔ IsCrossing (program.constraints ++ nonNegativity) point ∧
        point.cast Rat ∈ region Rat program.constraints) ∧
      solution.vertices.map (·.point) = vertices ∧ solution.best ∈ solution.vertices ∧
      convexHull vertices = .ok solution.region := by
  obtain ⟨found, crossings, vertices, feasible, nodup, members⟩ :=
    feasibleVertices_eq_ok separates
  have planar : (Number.integer 2).less program.unknowns = false := by
    by_contra many
    rw [Bool.not_eq_false] at many
    unfold solve at solved
    rw [if_pos many] at solved
    cases solved
  have some_vertex : vertices ≠ [] := by
    rintro rfl
    rw [solve_infeasible planar crossings feasible] at solved
    cases solved
  obtain ⟨drawn, result, evaluated, isBest, hull⟩ :=
    solve_draws planar crossings feasible some_vertex
  obtain rfl : drawn = solution := by
    rw [result] at solved
    cases solved
    rfl
  refine ⟨vertices, nodup, mem_vertices_iff members, ?_, isBest.mem, hull⟩
  rw [evaluated, List.map_map]
  exact List.map_id vertices

/-- The region drawn for a solved program lists the points of all its vertices once each,
the best one among them, and runs counter-clockwise: from wherever the walk along it
starts, any three of its points in order turn left. -/
theorem region_lists_vertices
    (separates : Separates tolerance (program.constraints ++ nonNegativity))
    (solved : (solve program tolerance).result = .ok (.solved solution)) :
    solution.region.Perm (solution.vertices.map (·.point)) ∧ solution.region.Nodup ∧
      (∀ shift, (solution.region.rotate shift).Triplewise fun first second third =>
        0 < area first second third) ∧
      solution.best.point ∈ solution.region := by
  obtain ⟨vertices, nodup, listed, points, bestListed, drawn⟩ :=
    drawn_of_solved separates solved
  obtain ⟨hull, hullOk, encloses⟩ := convexHull_eq_ok nodup
  obtain rfl : hull = solution.region := Except.ok.inj (hullOk.symm.trans drawn)
  have complete : solution.region.Perm vertices :=
    encloses.perm nodup (exists_exposed listed)
  rw [points]
  refine ⟨complete, encloses.nodup, triplewise_rotate ?_ encloses.turns, ?_⟩
  · intro first second third left
    rwa [area_rotate]
  · rw [complete.mem_iff, ← points]
    exact List.mem_map_of_mem bestListed

/-- Over the triangle, whose second line only touches it, all three vertices are drawn. -/
theorem triangle_is_drawn :
    ∃ solution, (solve triangle (1 / 1000)).result = .ok (.solved solution) ∧
      solution.region = [⟨0, 0⟩, ⟨4, 0⟩, ⟨0, 4⟩] ∧
      solution.region.Perm (solution.vertices.map (·.point)) ∧ solution.region.Nodup ∧
      (∀ shift, (solution.region.rotate shift).Triplewise fun first second third =>
        0 < area first second third) ∧
      solution.best.point ∈ solution.region := by
  have separates : Separates (1 / 1000) (triangle.constraints ++ nonNegativity) := by
    decide +kernel
  have run : (match (solve triangle (1 / 1000)).result with
      | .ok (.solved solution) => decide (solution.region = [⟨0, 0⟩, ⟨4, 0⟩, ⟨0, 4⟩])
      | _ => false) = true := by
    decide +kernel
  split at run
  case h_1 solution solved =>
    exact ⟨solution, solved, of_decide_eq_true run, region_lists_vertices separates solved⟩
  case h_2 => cases run

end OptimalPlans.Plane
