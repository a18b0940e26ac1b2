import OptimalPlans.Proofs.Plane.VertexEnumeration

/-!
# Constraints in other units

A constraint multiplied by a positive factor describes the same half-plane or line, and its
boundary line crosses the others in the same points.  What grows with the factor are its
determinants with other boundary lines and the excess of a point over it, and both are
compared with the tolerance.  As long as the factor carries none of them to the other side
of the tolerance, the program is solved as before; where it does, vertices are lost.
-/

namespace OptimalPlans.Plane

/-- The same half-plane or line in other units. -/
def Constraint.scaled (factor : Rat) (constraint : Constraint Rat) : Constraint Rat where
  a := factor * constraint.a
  b := factor * constraint.b
  relation := constraint.relation
  rhs := factor * constraint.rhs

section Scaled

variable {factor : Rat} (constraint other : Constraint Rat)

theorem det_scaled : (constraint.scaled factor).det other = factor * constraint.det other := by
  simp only [Constraint.det, Constraint.scaled]
  ring

theorem value_scaled (point : Point Rat) :
    (constraint.scaled factor).value point = factor * constraint.value point := by
  simp only [Constraint.value, Constraint.scaled]
  ring

theorem excess_scaled (positive : 0 < factor) (point : Point Rat) :
    (constraint.scaled factor).excess point = factor * constraint.excess point := by
  have rhs : (constraint.scaled factor).rhs = factor * constraint.rhs := rfl
  have relation : (constraint.scaled factor).relation = constraint.relation := rfl
  unfold Constraint.excess
  rw [relation, value_scaled, rhs]
  cases constraint.relation with
  | atMost => ring
  | atLeast => ring
  | equal => rw [← mul_sub, abs_mul, abs_of_pos positive]

/-- The factor cancels from the coordinates of a crossing. -/
theorem crossing_scaled (nonzero : factor ≠ 0) :
    crossing (constraint.scaled factor) other = crossing constraint other := by
  simp only [crossing, det_scaled, Point.mk.injEq]
  constructor
  · rw [← mul_div_mul_left _ (constraint.det other) nonzero]
    simp only [Constraint.scaled]
    ring
  · rw [← mul_div_mul_left _ (constraint.det other) nonzero]
    simp only [Constraint.scaled]
    ring

end Scaled

/-! ## Outcomes that agree -/

/-- The same refusal, or the same vertices in the same order with the same best one.  The
boundary lines that are drawn may have other labels. -/
inductive Outcome.Agrees : Outcome Rat → Outcome Rat → Prop
  | tooManyVariables : Agrees .tooManyVariables .tooManyVariables
  | infeasible : Agrees .infeasible .infeasible
  | solved {first second : Solution Rat} :
      first.vertices = second.vertices → first.best = second.best →
      Agrees (.solved first) (.solved second)

/-- There is only one first best value. -/
theorem FirstBest.unique {β : Type} {key : β → Rat} {values : List β} {chosen other : β}
    (first : FirstBest key values chosen) (second : FirstBest key values other) :
    chosen = other := by
  have found : ∀ {best : β}, FirstBest key values best →
      values.find? (fun value => key value = key best) = some best := by
    intro best isBest
    obtain ⟨before, after, split, below⟩ := isBest.earliest
    refine List.find?_eq_some_iff_append.mpr ⟨by simp, before, after, split, fun value member => ?_⟩
    simpa using (below value member).ne
  have level : key chosen = key other :=
    (second.greatest chosen first.mem).antisymm (first.greatest other second.mem)
  have same := found first
  rw [level, found second] at same
  exact (Option.some.inj same).symm

/-- A program is solved by the points that its tolerance lets through, and by nothing else of
its constraints. -/
theorem solve_agrees {program : Program Rat} {tolerance : Rat} (positive : 0 < tolerance)
    {constraints : List (Constraint Rat)}
    (same : (meetings tolerance (constraints ++ nonNegativity)).filter
        (Passes tolerance (constraints ++ nonNegativity)) =
      (meetings tolerance (program.constraints ++ nonNegativity)).filter
        (Passes tolerance (program.constraints ++ nonNegativity))) :
    ∃ outcome changed, (solve program tolerance).result = .ok outcome ∧
      (solve { program with constraints } tolerance).result = .ok changed ∧
      outcome.Agrees changed := by
  cases planar : (Number.integer 2).less program.unknowns with
  | true =>
      refine ⟨.tooManyVariables, .tooManyVariables, ?_, ?_, .tooManyVariables⟩
      · simp only [solve, planar, if_true, Journal.result_pure]
      · simp only [solve, planar, if_true, Journal.result_pure]
  | false =>
      let other : Program Rat := { program with constraints }
      have otherPlanar : (Number.integer 2).less other.unknowns = false := planar
      have crossings := intersections_eq_meetings positive (program.constraints ++ nonNegativity)
      have otherCrossings := intersections_eq_meetings positive (other.constraints ++ nonNegativity)
      obtain ⟨vertices, kept, _⟩ := distinct_keeps positive.le
        ((meetings tolerance (program.constraints ++ nonNegativity)).filter
          (Passes tolerance (program.constraints ++ nonNegativity)))
      have feasible := (feasibleVertices_eq_distinct tolerance
        (program.constraints ++ nonNegativity) _).trans kept
      have otherFeasible := (feasibleVertices_eq_distinct tolerance
        (other.constraints ++ nonNegativity) _).trans (same ▸ kept)
      by_cases none : vertices = []
      · subst none
        exact ⟨_, _, solve_infeasible planar crossings feasible,
          solve_infeasible otherPlanar otherCrossings otherFeasible, .infeasible⟩
      · obtain ⟨solution, result, evaluated, isBest⟩ :=
          solve_solved planar crossings feasible none
        obtain ⟨changed, changedResult, changedEvaluated, changedBest⟩ :=
          solve_solved otherPlanar otherCrossings otherFeasible none
        have vertices_eq : solution.vertices = changed.vertices :=
          evaluated.trans changedEvaluated.symm
        exact ⟨_, _, result, changedResult,
          .solved vertices_eq (isBest.unique (vertices_eq ▸ changedBest))⟩

/-! ## Scaling one constraint -/

section Replaced

variable {tolerance factor : Rat} {before after : List (Constraint Rat)}
  {constraint replaced : Constraint Rat}

/-- A constraint may be replaced by one whose boundary line meets the others alike. -/
theorem meetings_replace
    (alike : ∀ other ∈ before ++ after,
      meeting? tolerance replaced other = meeting? tolerance constraint other) :
    meetings tolerance (before ++ replaced :: after) =
      meetings tolerance (before ++ constraint :: after) := by
  induction before with
  | nil =>
      have first : ∀ other ∈ after, meeting? tolerance replaced other =
          meeting? tolerance constraint other := alike
      simp only [meetings, List.nil_append, pairs, List.filterMap_append, List.filterMap_map]
      exact congrArg (· ++ _) (List.filterMap_congr first)
  | cons opening before induction =>
      have later := induction fun other member => alike other (List.mem_cons_of_mem _ member)
      have here : meeting? tolerance opening replaced = meeting? tolerance opening constraint := by
        rw [← meeting?_swap, alike opening (by simp), meeting?_swap]
      simp only [meetings] at later
      simp only [meetings, List.cons_append, pairs, List.filterMap_append, List.filterMap_map,
        List.filterMap_cons, Function.comp_apply, here, later]

/-- Scaling one constraint among others moves no determinant with its boundary line and no
excess over it to the other side of the tolerance.  Only points matter that the other
constraints let pass. -/
structure KeepsSides (tolerance factor : Rat) (before : List (Constraint Rat))
    (constraint : Constraint Rat) (after : List (Constraint Rat)) : Prop where
  slopes : ∀ other ∈ before ++ after,
    factor * |constraint.det other| < tolerance ↔ |constraint.det other| < tolerance
  excesses : ∀ point ∈ meetings tolerance (before ++ constraint :: after),
    Passes tolerance (before ++ after) point →
      (factor * constraint.excess point ≤ tolerance ↔ constraint.excess point ≤ tolerance)

theorem KeepsSides.meetings_eq (positive : 0 < factor)
    (keeps : KeepsSides tolerance factor before constraint after) :
    meetings tolerance (before ++ constraint.scaled factor :: after) =
      meetings tolerance (before ++ constraint :: after) := by
  refine meetings_replace fun other member => ?_
  rw [meeting?, meeting?, det_scaled, abs_mul, abs_of_pos positive,
    crossing_scaled constraint other positive.ne']
  simp only [keeps.slopes other member]

theorem KeepsSides.passes_iff (positive : 0 < factor)
    (keeps : KeepsSides tolerance factor before constraint after) {point : Point Rat}
    (met : point ∈ meetings tolerance (before ++ constraint :: after)) :
    Passes tolerance (before ++ constraint.scaled factor :: after) point ↔
      Passes tolerance (before ++ constraint :: after) point := by
  have parts : ∀ middle : Constraint Rat, Passes tolerance (before ++ middle :: after) point ↔
      middle.excess point ≤ tolerance ∧ Passes tolerance (before ++ after) point := by
    intro middle
    simp only [Passes, List.forall_mem_append, List.forall_mem_cons]
    tauto
  rw [parts, parts, excess_scaled constraint positive]
  exact and_congr_left (keeps.excesses point met)

end Replaced

/-- Multiplying a constraint by a positive factor changes neither the refusal of a program nor
its vertices, their order and the best one, as long as the factor carries no determinant with
the boundary line of the constraint, and no excess over it at a meeting point that the other
constraints let pass, to the other side of the tolerance. -/
theorem rescaled_program_agrees {program : Program Rat} {tolerance factor : Rat}
    (positive : 0 < tolerance) (factorPositive : 0 < factor)
    {before after : List (Constraint Rat)} {constraint : Constraint Rat}
    (listed : program.constraints = before ++ constraint :: after)
    (keeps : KeepsSides tolerance factor before constraint (after ++ nonNegativity)) :
    ∃ outcome rescaled, (solve program tolerance).result = .ok outcome ∧
      (solve { program with constraints := before ++ constraint.scaled factor :: after }
        tolerance).result = .ok rescaled ∧
      outcome.Agrees rescaled := by
  refine solve_agrees positive ?_
  rw [listed, List.append_assoc, List.append_assoc, List.cons_append, List.cons_append,
    keeps.meetings_eq factorPositive]
  refine List.filter_congr fun point met => ?_
  simp only [keeps.passes_iff factorPositive met]

/-- Half the first constraint of the triangle. -/
theorem halved_triangle_agrees :
    KeepsSides (1 / 10 ^ 9) (1 / 2) [] ⟨1, 1, .atMost, 4⟩
        ([⟨1, 0, .atMost, 4⟩] ++ nonNegativity) ∧
      ∃ outcome rescaled, (solve triangle (1 / 10 ^ 9)).result = .ok outcome ∧
        (solve { triangle with constraints := [⟨1 / 2, 1 / 2, .atMost, 2⟩, ⟨1, 0, .atMost, 4⟩] }
          (1 / 10 ^ 9)).result = .ok rescaled ∧
        outcome.Agrees rescaled := by
  have keeps : KeepsSides (1 / 10 ^ 9) (1 / 2) [] ⟨1, 1, .atMost, 4⟩
      ([⟨1, 0, .atMost, 4⟩] ++ nonNegativity) :=
    ⟨by decide +kernel, by decide +kernel⟩
  have half : (⟨1, 1, .atMost, 4⟩ : Constraint Rat).scaled (1 / 2) =
      ⟨1 / 2, 1 / 2, .atMost, 2⟩ := by
    norm_num [Constraint.scaled]
  have listed : triangle.constraints = [] ++ ⟨1, 1, .atMost, 4⟩ :: [⟨1, 0, .atMost, 4⟩] := rfl
  refine ⟨keeps, half ▸ ?_⟩
  exact rescaled_program_agrees (by norm_num) (by norm_num) listed keeps

/-- A program over a rectangle. -/
def rectangle : Program Rat where
  unknowns := .integer 2
  objective := [1, 1]
  maximize := true
  constraints := [⟨1, 0, .atMost, 4⟩, ⟨0, 1, .atMost, 3⟩]

/-- In small units the tolerance of one billionth takes the boundary line of a constraint for a
parallel of every other one, and the vertices on it are lost. -/
theorem rescaled_rectangle_loses_vertices :
    ¬ ∀ (program : Program Rat) (before after : List (Constraint Rat))
        (constraint : Constraint Rat) (factor : Rat),
      program.constraints = before ++ constraint :: after → 0 < factor →
      ∃ outcome rescaled, (solve program (1 / 10 ^ 9)).result = .ok outcome ∧
        (solve { program with constraints := before ++ constraint.scaled factor :: after }
          (1 / 10 ^ 9)).result = .ok rescaled ∧
        outcome.Agrees rescaled := by
  intro agree
  let vertexCount : Outcome Rat → Nat := fun outcome =>
    match outcome with
    | .solved solution => solution.vertices.length
    | _ => 0
  obtain ⟨outcome, rescaled, result, rescaledResult, agrees⟩ :=
    agree rectangle [] [⟨0, 1, .atMost, 3⟩] ⟨1, 0, .atMost, 4⟩ (1 / 10 ^ 10) rfl (by norm_num)
  have four : (solve rectangle (1 / 10 ^ 9)).result.map vertexCount = .ok 4 := by
    decide +kernel
  have two : (solve { rectangle with constraints :=
      [(⟨1, 0, .atMost, 4⟩ : Constraint Rat).scaled (1 / 10 ^ 10), ⟨0, 1, .atMost, 3⟩] }
        (1 / 10 ^ 9)).result.map vertexCount = .ok 2 := by
    decide +kernel
  have counted : vertexCount outcome = vertexCount rescaled := by
    cases agrees with
    | tooManyVariables => rfl
    | infeasible => rfl
    | solved vertices => exact congrArg List.length vertices
  rw [result] at four
  simp only [List.nil_append] at rescaledResult
  rw [rescaledResult] at two
  have four : vertexCount outcome = 4 := Except.ok.inj four
  have two : vertexCount rescaled = 2 := Except.ok.inj two
  omega

end OptimalPlans.Plane
