import OptimalPlans.Proofs.Assignment.MatchingCost

/-!
# Assignments are cheapest

The tasks of the agents are read off the matching of the padded matrix.  They form a
matching of the real lines, and as its permutation is the cheapest one of the padded
lines, no matching of the real lines is cheaper.
-/

namespace OptimalPlans.Assignment

open Transport

/-! ## Reading off the tasks -/

theorem pairsOf_map_range (task : Nat → Option Nat) (count : Nat) :
    pairsOf ((List.range count).map task) =
      (List.range count).filterMap fun agent =>
        (task agent).map fun job => (agent, job) := by
  unfold pairsOf
  induction count with
  | zero => rfl
  | succ count induction =>
      simp only [List.range_succ, List.map_append, List.zipIdx_append,
        List.filterMap_append, induction]
      simp [List.filterMap_cons]

theorem taskOf_eq {n cols : Nat} {partner : Vector (Option (Fin n)) n}
    {task : Equiv.Perm (Fin n)}
    (stands : ∀ row col : Fin n, partner.get col = some row ↔ col = task row)
    (agent : Fin n) :
    taskOf partner cols agent.val =
      if (task agent).val < cols then some (task agent).val else none := by
  have test : ∀ col : Fin n,
      ((partner.get col).map Fin.val == some agent.val && decide (col.val < cols)) =
        decide (col = task agent ∧ (task agent).val < cols) := by
    intro col
    have held : (partner.get col).map Fin.val = some agent.val ↔ col = task agent := by
      rw [← stands agent col, Option.map_eq_some_iff]
      constructor
      · rintro ⟨row, holds, same⟩
        rw [← Fin.ext same]
        exact holds
      · exact fun holds => ⟨agent, holds, rfl⟩
    rw [Bool.eq_iff_iff, Bool.and_eq_true, beq_iff_eq, held, decide_eq_true_iff,
      decide_eq_true_iff]
    constructor
    · rintro ⟨rfl, below⟩
      exact ⟨rfl, below⟩
    · rintro ⟨rfl, below⟩
      exact ⟨rfl, below⟩
  suffices collected : ∀ (cols' : List (Fin n)) (found : Option Nat),
      cols'.foldl (fun found col =>
        if (partner.get col).map Fin.val == some agent.val && col.val < cols
        then some col.val else found) found =
        if task agent ∈ cols' ∧ (task agent).val < cols then some (task agent).val
        else found by
    unfold taskOf
    rw [collected]
    simp
  intro later
  induction later with
  | nil => simp
  | cons col later induction =>
      intro found
      rw [List.foldl_cons, induction, test]
      by_cases here : col = task agent
      · by_cases below : (task agent).val < cols <;> simp [here, below]
      · have apart : task agent ≠ col := Ne.symm here
        simp [here, apart]

/-! ## The real part of a permutation -/

/-- The agents to whom a function gives a task, with their tasks. -/
def givenPairs (job : Nat → Option Nat) (rows : Nat) : List (Nat × Nat) :=
  (List.range rows).filterMap fun agent => (job agent).map fun task => (agent, task)

theorem mem_givenPairs {job : Nat → Option Nat} {rows agent given : Nat} :
    (agent, given) ∈ givenPairs job rows ↔ agent < rows ∧ job agent = some given := by
  simp [givenPairs]

theorem agents_nodup_givenPairs (job : Nat → Option Nat) (rows : Nat) :
    ((givenPairs job rows).map Prod.fst).Nodup := by
  rw [givenPairs, List.map_filterMap]
  refine List.Nodup.filterMap ?_ List.nodup_range
  intro first second agent
  simp only [Option.map_map, Option.mem_def, Option.map_eq_some_iff]
  rintro ⟨_, _, rfl⟩ ⟨_, _, rfl⟩
  rfl

section RealPart

variable {n rows cols : Nat} {task : Equiv.Perm (Fin n)} {job : Nat → Option Nat}
  (gives : ∀ agent : Fin n, job agent.val =
    if (task agent).val < cols then some (task agent).val else none)

include gives

theorem job_eq_some (agent : Fin n) (given : Nat) :
    job agent.val = some given ↔ (task agent).val = given ∧ given < cols := by
  rw [gives]
  split
  case isTrue below =>
    rw [Option.some.injEq]
    constructor
    · rintro rfl
      exact ⟨rfl, below⟩
    · exact And.left
  case isFalse above =>
    constructor
    · rintro ⟨⟩
    · rintro ⟨rfl, below⟩
      exact absurd below above

theorem follows_givenPairs (rowsFit : rows ≤ n) : Follows task (givenPairs job rows) := by
  rintro ⟨agent, given⟩ member
  obtain ⟨bound, holds⟩ := mem_givenPairs.mp member
  let row : Fin n := ⟨agent, bound.trans_le rowsFit⟩
  exact ⟨row, rfl, ((job_eq_some gives row given).mp holds).1⟩

theorem inTable_givenPairs (rowsFit : rows ≤ n) {pair : Nat × Nat}
    (member : pair ∈ givenPairs job rows) : pair.1 < rows ∧ pair.2 < cols := by
  obtain ⟨bound, holds⟩ := mem_givenPairs.mp member
  let row : Fin n := ⟨pair.1, bound.trans_le rowsFit⟩
  exact ⟨bound, ((job_eq_some gives row pair.2).mp holds).2⟩

theorem tasks_nodup_givenPairs (rowsFit : rows ≤ n) :
    ((givenPairs job rows).map Prod.snd).Nodup := by
  apply (List.nodup_map_iff_inj_on (agents_nodup_givenPairs job rows).of_map).mpr
  rintro ⟨first, given⟩ firstMember ⟨second, other⟩ secondMember same
  obtain rfl : given = other := same
  obtain ⟨firstBound, firstHolds⟩ := mem_givenPairs.mp firstMember
  obtain ⟨secondBound, secondHolds⟩ := mem_givenPairs.mp secondMember
  let firstRow : Fin n := ⟨first, firstBound.trans_le rowsFit⟩
  let secondRow : Fin n := ⟨second, secondBound.trans_le rowsFit⟩
  have firstGives := ((job_eq_some gives firstRow given).mp firstHolds).1
  have secondGives := ((job_eq_some gives secondRow given).mp secondHolds).1
  have sameRow : firstRow = secondRow :=
    task.injective (Fin.ext (firstGives.trans secondGives.symm))
  rw [show first = second from congrArg Fin.val sameRow]

/-- Every real agent has a task when there are tasks enough. -/
theorem rows_le_length_givenPairs (rowsFit : rows ≤ n) (enough : n ≤ cols) :
    rows ≤ (givenPairs job rows).length := by
  have served : List.range rows ⊆ (givenPairs job rows).map Prod.fst := by
    intro agent member
    have bound := List.mem_range.mp member
    let row : Fin n := ⟨agent, bound.trans_le rowsFit⟩
    have below : (task row).val < cols := (task row).isLt.trans_le enough
    have holds := (job_eq_some gives row _).mpr ⟨rfl, below⟩
    exact List.mem_map.mpr ⟨_, mem_givenPairs.mpr ⟨bound, holds⟩, rfl⟩
  have counted := (List.nodup_range.subperm served).length_le
  rwa [List.length_range, List.length_map] at counted

/-- Every real task has an agent when there are agents enough. -/
theorem cols_le_length_givenPairs (colsFit : cols ≤ n) (enough : n ≤ rows) :
    cols ≤ (givenPairs job rows).length := by
  have served : List.range cols ⊆ (givenPairs job rows).map Prod.snd := by
    intro given member
    have bound := List.mem_range.mp member
    let row := task.symm ⟨given, bound.trans_le colsFit⟩
    have rowBound : row.val < rows := row.isLt.trans_le enough
    have holds := (job_eq_some gives row given).mpr ⟨by simp [row], bound⟩
    exact List.mem_map.mpr ⟨_, mem_givenPairs.mpr ⟨rowBound, holds⟩, rfl⟩
  have counted := (List.nodup_range.subperm served).length_le
  rwa [List.length_range, List.length_map] at counted

theorem isMatching_givenPairs (size : n = max rows cols) :
    IsMatching rows cols (givenPairs job rows) := by
  have rowsFit : rows ≤ n := size ▸ le_max_left rows cols
  have colsFit : cols ≤ n := size ▸ le_max_right rows cols
  have inTable : ∀ pair ∈ givenPairs job rows, pair.1 < rows ∧ pair.2 < cols :=
    fun _ member => inTable_givenPairs gives rowsFit member
  have agents := agents_nodup_givenPairs job rows
  have tasks := tasks_nodup_givenPairs gives rowsFit
  refine ⟨inTable, agents, tasks, le_antisymm (le_min ?_ ?_) ?_⟩
  · have bounded := length_le_of_nodup agents fun agent member => by
      obtain ⟨pair, pairMember, rfl⟩ := List.mem_map.mp member
      exact (inTable pair pairMember).1
    simpa using bounded
  · have bounded := length_le_of_nodup tasks fun given member => by
      obtain ⟨pair, pairMember, rfl⟩ := List.mem_map.mp member
      exact (inTable pair pairMember).2
    simpa using bounded
  · rcases le_total rows cols with narrow | wide
    · rw [max_eq_right narrow] at size
      rw [min_eq_left narrow]
      exact rows_le_length_givenPairs gives rowsFit size.le
    · rw [max_eq_left wide] at size
      rw [min_eq_right wide]
      exact cols_le_length_givenPairs gives colsFit size.le

end RealPart

/-! ## The assignment -/

section Assigning

variable {rows cols : Nat} {costs : Table Rat}

theorem headD_length (shaped : costs.Shaped rows cols) (positive : 0 < rows) :
    (costs.headD []).length = cols := by
  cases costs with
  | nil =>
      have empty : 0 = rows := shaped.length_eq
      omega
  | cons row later => exact shaped.row_length_eq row (by simp)

theorem padded_eq_price (row col : Fin (paddedSize costs)) :
    ((padded costs).get row).get col = costs.price ⟨row.val, col.val⟩ := by
  rw [padded, Vector.get_ofFn, Vector.get_ofFn]
  rfl

/-- The tasks found are a matching that no other one undercuts. -/
theorem cheapestTasks_isMatching (shaped : costs.Shaped rows cols) (positive : 0 < rows) :
    IsMatching rows cols (pairsOf (cheapestTasks costs)) ∧
      ∀ pairs, IsMatching rows cols pairs →
        matchingCost costs (pairsOf (cheapestTasks costs)) ≤ matchingCost costs pairs := by
  have width := headD_length shaped positive
  have size : paddedSize costs = max rows cols := by
    rw [paddedSize, shaped.length_eq, width]
  have rowsFit : rows ≤ paddedSize costs := size ▸ le_max_left rows cols
  have colsFit : cols ≤ paddedSize costs := size ▸ le_max_right rows cols
  have sound := cheapestMatching_sound (padded costs)
  obtain ⟨task, stands⟩ := sound.exists_perm
  have gives : ∀ agent, _ = ite ((task agent).val < cols) _ _ := taskOf_eq stands
  have found : pairsOf (cheapestTasks costs) =
      givenPairs (taskOf (cheapestMatching (padded costs)).partner cols) rows := by
    unfold cheapestTasks
    rw [shaped.length_eq, width]
    exact pairsOf_map_range _ rows
  rw [found]
  have isMatching := isMatching_givenPairs gives size
  refine ⟨isMatching, fun pairs other => ?_⟩
  obtain ⟨otherTask, follows⟩ := other.exists_follows rowsFit colsFit
  calc matchingCost costs (givenPairs _ rows)
      = ∑ row, costs.price ⟨row.val, (task row).val⟩ :=
        (isMatching.sum_eq shaped (follows_givenPairs gives rowsFit)).symm
    _ ≤ ∑ row, costs.price ⟨row.val, (otherTask row).val⟩ := by
        have least := sound.sum_le stands otherTask
        simpa only [padded_eq_price] using least
    _ = matchingCost costs pairs := other.sum_eq shaped follows

theorem totalOf_eq_ok (shaped : costs.Shaped rows cols) {pairs : List (Nat × Nat)}
    (inTable : ∀ pair ∈ pairs, pair.1 < rows ∧ pair.2 < cols) :
    totalOf costs pairs = .ok (matchingCost costs pairs) := by
  have summed : totalOf costs pairs = .ok
      (pairs.foldl (fun total pair => total + costs.price ⟨pair.1, pair.2⟩) 0) := by
    unfold totalOf
    refine foldlM_eq_ok _ fun pair member total => ?_
    obtain ⟨rowBound, colBound⟩ := inTable pair member
    rw [shaped.entry_eq_ok ⟨rowBound, colBound⟩, ok_bind, Scalar.add_rat]
  rw [summed, matchingCost, List.sum_eq_foldl, List.foldl_map]

theorem measureAll_ok (costs : Table Rat) :
    measureAll (fun cost => .ok cost) costs = .ok costs := by
  have copied : ∀ row : List Rat,
      row.mapM (fun cost => (.ok cost : Except Fault Rat)) = .ok (row.map id) :=
    fun row => mapM_eq_ok fun _ _ => rfl
  have each : ∀ row ∈ costs,
      row.mapM (fun cost => (.ok cost : Except Fault Rat)) = .ok (id row) := by
    intro row _
    rw [copied, List.map_id, id]
  rw [measureAll, mapM_eq_ok each, List.map_id]

theorem ofTasks_eq_ok (shaped : costs.Shaped rows cols) (positive : 0 < rows)
    {tasks : List (Option Nat)} (isMatching : IsMatching rows cols (pairsOf tasks)) :
    Result.ofTasks costs tasks =
      .ok ⟨tasks, matchingCost costs (pairsOf tasks), decide (rows ≤ cols)⟩ := by
  have perfect : (min rows cols == rows && decide (rows ≤ cols)) =
      decide (rows ≤ cols) := by
    rw [Bool.eq_iff_iff]
    simp
  rw [Result.ofTasks, totalOf_eq_ok shaped isMatching.inTable, ok_bind,
    isMatching.length_eq, headD_length shaped positive, shaped.length_eq, perfect]
  rfl

end Assigning

/-! ## The checked problem -/

/-- Without its notes a solution is the assignment of the costs that were checked. -/
theorem solve_result {agents tasks cost : Value} {costs : Table Number} {cols : Nat}
    (checked : costMatrix costMatrixName cost = .ok (costs, cols))
    (agentsAgree : agents.same (.integer costs.length) = true)
    (tasksAgree : tasks.same (.integer cols) = true) :
    (solve agents tasks cost).result = assign Number.toDouble costs := by
  have read : (monadLift (costMatrix costMatrixName cost) : Journal _).result =
      .ok (costs, cols) := checked
  have handed : ∀ step : Except Fault (Result Number),
      (step >>= fun result => Except.ok result) = step := by
    intro step
    cases step <;> rfl
  unfold solve assign
  rw [Journal.result_bind, read, ok_bind]
  simp only [agentsAgree, tasksAgree, Bool.not_true, Bool.or_self, Bool.false_eq_true,
    if_false, Journal.result_bind, Journal.result_monadLift, Journal.result_noteAll,
    Journal.result_note, Journal.result_pure, ok_bind]
  exact bind_congr fun measured => handed (Result.ofTasks costs (cheapestTasks measured))

/-- With exact costs the assignment serves as many agents as possible, each with a task
of its own, and costs no more than any other way to do so. -/
theorem assign_is_cheapest {rows cols : Nat} {costs : Table Rat}
    (shaped : costs.Shaped rows cols) (positive : 0 < rows) :
    ∃ result, assign (fun cost => .ok cost) costs = .ok result ∧
      result.tasks.length = rows ∧
      IsMatching rows cols (pairsOf result.tasks) ∧
      result.totalCost = matchingCost costs (pairsOf result.tasks) ∧
      (∀ pairs, IsMatching rows cols pairs →
        result.totalCost ≤ matchingCost costs pairs) ∧
      (result.isPerfect = true ↔ rows ≤ cols) := by
  obtain ⟨isMatching, least⟩ := cheapestTasks_isMatching shaped positive
  have result := ofTasks_eq_ok shaped positive isMatching
  have length : (cheapestTasks costs).length = rows := by
    simp [cheapestTasks, shaped.length_eq]
  exact ⟨_, by rw [assign, measureAll_ok, ok_bind, result], length, isMatching, rfl, least,
    decide_eq_true_iff⟩

theorem rectangle_assignment_is_cheapest :
    ∃ result, assign (fun cost => .ok cost) [[-4, 1, 3], [-7, 0, (5 : Rat)]] = .ok result ∧
      result.totalCost = -6 ∧ result.isPerfect = true ∧
      ∀ pairs, IsMatching 2 3 pairs →
        result.totalCost ≤ matchingCost [[-4, 1, 3], [-7, 0, 5]] pairs := by
  have shaped : Table.Shaped 2 3 [[-4, 1, 3], [-7, 0, (5 : Rat)]] := ⟨rfl, by simp⟩
  obtain ⟨result, assigned, _, _, _, least, perfect⟩ := assign_is_cheapest shaped two_pos
  have total : (assign (fun cost => .ok cost) [[-4, 1, 3], [-7, 0, (5 : Rat)]]).map
      (·.totalCost) = .ok (-6) := by
    cbv
  rw [assigned] at total
  exact ⟨result, assigned, Except.ok.inj total, perfect.mpr (by decide), least⟩

end OptimalPlans.Assignment
