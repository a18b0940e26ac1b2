import OptimalPlans.Assignment.Solution
import OptimalPlans.Proofs.Assignment.Augmentation
import OptimalPlans.Proofs.Transport.Shipment

/-!
# What a matching costs

The prices of a sound matching bound the cost of every permutation of the lines, and its
own permutation attains the bound.  A matching of the real lines is part of a permutation
of the padded ones; the lines it leaves over meet dummies only, so both cost the same.
-/

namespace OptimalPlans.Assignment

open Transport

/-! ## Permutations -/

section Permutations

variable {n : Nat} {costs : Matrix Rat n} {matching : Matching Rat n}

/-- The column of every row of a sound matching. -/
theorem Matching.Sound.exists_perm (sound : matching.Sound costs fun _ => True) :
    ∃ task : Equiv.Perm (Fin n),
      ∀ row col : Fin n, matching.partner.get col = some row ↔ col = task row := by
  have everyMatched : ∀ row, ∃ col : Fin n, matching.partner.get col = some row :=
    fun row => (sound.matched row).mp trivial
  choose task partner using everyMatched
  have injective : Function.Injective task := by
    intro first second same
    have held := partner first
    rw [same, partner second] at held
    exact (Option.some.inj held).symm
  have bijective : Function.Bijective task := Finite.injective_iff_bijective.mp injective
  refine ⟨Equiv.ofBijective task bijective, fun row col => ⟨fun holds => ?_, ?_⟩⟩
  · exact sound.injective row col (task row) holds (partner row)
  · rintro rfl
    exact partner row

theorem Matching.Sound.sum_le (sound : matching.Sound costs fun _ => True)
    {task : Equiv.Perm (Fin n)}
    (stands : ∀ row col : Fin n, matching.partner.get col = some row ↔ col = task row)
    (other : Equiv.Perm (Fin n)) :
    ∑ row, (costs.get row).get (task row) ≤ ∑ row, (costs.get row).get (other row) := by
  have price : ∀ row col : Fin n, (costs.get row).get col =
      matching.rowPrice.get row + matching.colPrice.get col +
        matching.gap costs row col := by
    intro row col
    rw [Matching.gap_eq]
    ring
  have worth : ∀ perm : Equiv.Perm (Fin n),
      ∑ row, (matching.rowPrice.get row + matching.colPrice.get (perm row)) =
        (∑ row, matching.rowPrice.get row) + ∑ col, matching.colPrice.get col := by
    intro perm
    rw [Finset.sum_add_distrib]
    exact congrArg _ (Equiv.sum_comp perm fun col : Fin n => matching.colPrice.get col)
  calc ∑ row, (costs.get row).get (task row)
      = ∑ row, (matching.rowPrice.get row + matching.colPrice.get (task row)) := by
        refine Finset.sum_congr rfl fun row _ => ?_
        rw [price, sound.tight row (task row) ((stands row _).mpr rfl), add_zero]
    _ = ∑ row, (matching.rowPrice.get row + matching.colPrice.get (other row)) := by
        rw [worth task, worth other]
    _ ≤ ∑ row, (costs.get row).get (other row) := by
        refine Finset.sum_le_sum fun row _ => ?_
        rw [price]
        exact le_add_of_nonneg_right (sound.feasible row (other row) trivial)

end Permutations

/-! ## Matchings of agents and tasks -/

/-- Distinct agents with distinct tasks, as many as the table allows. -/
structure IsMatching (rows cols : Nat) (pairs : List (Nat × Nat)) : Prop where
  inTable : ∀ pair ∈ pairs, pair.1 < rows ∧ pair.2 < cols
  agents_nodup : (pairs.map Prod.fst).Nodup
  tasks_nodup : (pairs.map Prod.snd).Nodup
  length_eq : pairs.length = min rows cols

/-- The sum of the given costs of the pairs. -/
def matchingCost (costs : Table Rat) (pairs : List (Nat × Nat)) : Rat :=
  (pairs.map fun pair => costs.price ⟨pair.1, pair.2⟩).sum

/-- A permutation that gives every pair its task. -/
def Follows {n : Nat} (task : Equiv.Perm (Fin n)) (pairs : List (Nat × Nat)) : Prop :=
  ∀ pair ∈ pairs, ∃ row : Fin n, row.val = pair.1 ∧ (task row).val = pair.2

theorem length_le_of_nodup {indices : List Nat} {bound : Nat} (nodup : indices.Nodup)
    (below : ∀ index ∈ indices, index < bound) : indices.length ≤ bound := by
  have subset : indices ⊆ List.range bound := fun index member =>
    List.mem_range.mpr (below index member)
  simpa using (nodup.subperm subset).length_le

theorem index_eq_of_nodup {pairs : List (Nat × Nat)} {side : Nat × Nat → Nat}
    (nodup : (pairs.map side).Nodup) {first second : Fin pairs.length}
    (same : side (pairs.get first) = side (pairs.get second)) : first = second := by
  have firstBound : first.val < (pairs.map side).length := by simp
  have secondBound : second.val < (pairs.map side).length := by simp
  have equal : (pairs.map side)[first.val] = (pairs.map side)[second.val] := by
    simpa using same
  exact Fin.ext (nodup.getElem_inj_iff.mp equal)

section Padding

variable {n rows cols : Nat} {costs : Table Rat} {pairs : List (Nat × Nat)}

theorem price_outside (shaped : costs.Shaped rows cols) {cell : Cell}
    (outside : ¬ cell.InTable rows cols) : costs.price cell = 0 := by
  unfold Table.price
  cases row : costs[cell.row]? with
  | none => rfl
  | some entries =>
      obtain ⟨rowBound, found⟩ := List.getElem?_eq_some_iff.mp row
      have length : entries.length = cols :=
        shaped.row_length_eq entries (found ▸ List.getElem_mem rowBound)
      have beyond : entries.length ≤ cell.col := by
        rw [length]
        by_contra inside
        refine outside ⟨?_, not_le.mp inside⟩
        rw [← shaped.length_eq]
        exact rowBound
      rw [Option.bind_some, List.getElem?_eq_none beyond]
      rfl

/-- A matching of real lines is part of a permutation of the padded ones. -/
theorem IsMatching.exists_follows (isMatching : IsMatching rows cols pairs)
    (rowsFit : rows ≤ n) (colsFit : cols ≤ n) :
    ∃ task : Equiv.Perm (Fin n), Follows task pairs := by
  let agent : Fin pairs.length → Fin n := fun index =>
    ⟨(pairs.get index).1,
      (isMatching.inTable _ (List.getElem_mem index.isLt)).1.trans_le rowsFit⟩
  let job : Fin pairs.length → Fin n := fun index =>
    ⟨(pairs.get index).2,
      (isMatching.inTable _ (List.getElem_mem index.isLt)).2.trans_le colsFit⟩
  have agentInjective : Function.Injective agent := by
    intro first second same
    exact index_eq_of_nodup isMatching.agents_nodup (congrArg Fin.val same)
  have jobInjective : Function.Injective job := by
    intro first second same
    exact index_eq_of_nodup isMatching.tasks_nodup (congrArg Fin.val same)
  obtain ⟨task, extends_pairs⟩ :=
    Equiv.Perm.exists_extending_pair agent job agentInjective jobInjective
  refine ⟨task, fun pair member => ?_⟩
  obtain ⟨index, bound, rfl⟩ := List.getElem_of_mem member
  exact ⟨agent ⟨index, bound⟩, rfl, congrArg Fin.val (extends_pairs ⟨index, bound⟩)⟩

/-- A matching leaves no agent over together with a task. -/
theorem IsMatching.full (isMatching : IsMatching rows cols pairs) {agent job : Nat}
    (agentBound : agent < rows) (jobBound : job < cols)
    (idle : agent ∉ pairs.map Prod.fst) : job ∈ pairs.map Prod.snd := by
  by_contra left
  have agents : (agent :: pairs.map Prod.fst).length ≤ rows := by
    refine length_le_of_nodup (List.nodup_cons.mpr ⟨idle, isMatching.agents_nodup⟩) ?_
    rintro index (_ | ⟨_, member⟩)
    · exact agentBound
    · obtain ⟨pair, pairMember, rfl⟩ := List.mem_map.mp member
      exact (isMatching.inTable pair pairMember).1
  have jobs : (job :: pairs.map Prod.snd).length ≤ cols := by
    refine length_le_of_nodup (List.nodup_cons.mpr ⟨left, isMatching.tasks_nodup⟩) ?_
    rintro index (_ | ⟨_, member⟩)
    · exact jobBound
    · obtain ⟨pair, pairMember, rfl⟩ := List.mem_map.mp member
      exact (isMatching.inTable pair pairMember).2
  have length := isMatching.length_eq
  simp only [List.length_cons, List.length_map] at agents jobs
  omega

/-- Outside the pairs a permutation that follows a matching meets dummies only. -/
theorem IsMatching.sum_eq (isMatching : IsMatching rows cols pairs)
    (shaped : costs.Shaped rows cols) {task : Equiv.Perm (Fin n)}
    (follows : Follows task pairs) :
    ∑ row : Fin n, costs.price ⟨row.val, (task row).val⟩ = matchingCost costs pairs := by
  choose line agent job using fun index : Fin pairs.length =>
    follows (pairs.get index) (List.getElem_mem index.isLt)
  have injective : Function.Injective line := by
    intro first second same
    apply index_eq_of_nodup isMatching.agents_nodup
    rw [← agent first, ← agent second, same]
  have outside : ∀ row, row ∉ Set.range line →
      costs.price ⟨row.val, (task row).val⟩ = 0 := by
    intro row apart
    apply price_outside shaped
    rintro ⟨rowBound, colBound⟩
    have idle : row.val ∉ pairs.map Prod.fst := by
      intro member
      obtain ⟨pair, pairMember, same⟩ := List.mem_map.mp member
      obtain ⟨index, bound, rfl⟩ := List.getElem_of_mem pairMember
      exact apart ⟨⟨index, bound⟩, Fin.ext ((agent ⟨index, bound⟩).trans same)⟩
    obtain ⟨pair, pairMember, same⟩ :=
      List.mem_map.mp (isMatching.full rowBound colBound idle)
    obtain ⟨index, bound, rfl⟩ := List.getElem_of_mem pairMember
    have sameTask : task (line ⟨index, bound⟩) = task row :=
      Fin.ext ((job ⟨index, bound⟩).trans same)
    exact apart ⟨⟨index, bound⟩, task.injective sameTask⟩
  have listed : matchingCost costs pairs =
      ∑ index, costs.price ⟨(pairs.get index).1, (pairs.get index).2⟩ := by
    unfold matchingCost
    rw [← List.sum_ofFn]
    congr 1
    exact List.ext_getElem (by simp) (by simp)
  rw [listed]
  symm
  refine Fintype.sum_of_injective line injective _ _ outside fun index => ?_
  rw [agent, job]

end Padding

end OptimalPlans.Assignment
