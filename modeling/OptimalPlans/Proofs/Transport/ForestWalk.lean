import OptimalPlans.Proofs.Transport.TrailAdequacy

/-!
# Walks through a forest

In a forest a walk that uses no cell twice meets every line at most twice and its two
ends at most once, and no other such walk joins the same lines.  A shortest walk uses no
cell twice, so joined lines have exactly one shortest walk between them.
-/

namespace OptimalPlans.Transport

/-- The two lines of a cell, in either order. -/
inductive Cell.Links (cell : Cell) : Line → Line → Prop where
  | across : cell.Links (.row cell.row) (.col cell.col)
  | back : cell.Links (.col cell.col) (.row cell.row)

namespace Cell.Links

variable {cell : Cell} {cells basis : List Cell} {near far first last : Line}

theorem ne (links : cell.Links near far) : near ≠ far := by
  cases links <;> simp

theorem touches_iff (links : cell.Links near far) (line : Line) :
    line.touches cell = true ↔ line = near ∨ line = far := by
  rw [Line.touches_iff]
  cases links with
  | across => exact Iff.rfl
  | back => exact or_comm

theorem count_touches (links : cell.Links near far) (line : Line) :
    (if line.touches cell = true then 1 else 0) =
      (if line = near then 1 else 0) + if line = far then 1 else 0 := by
  have ne := links.ne
  simp only [links.touches_iff]
  by_cases atNear : line = near
  · subst atNear
    simp [ne]
  · simp [atNear]

/-- A cell leads from each of its lines to the other only. -/
theorem eq_or_swapped (links : cell.Links near far) (again : cell.Links first last) :
    (first = near ∧ last = far) ∨ (first = far ∧ last = near) := by
  cases links <;> cases again <;> simp

theorem joined (links : cell.Links near far) (member : cell ∈ cells) :
    Joined cells near far := by
  cases links with
  | across => exact Joined.of_mem member
  | back => exact (Joined.of_mem member).symm

/-- Without the cell, a forest does not lead from one of its lines to the other. -/
theorem apart (links : cell.Links near far) (loopless : Loopless basis)
    (member : cell ∈ basis) (within : cells ⊆ basis) (absent : cell ∉ cells) :
    ¬ Joined cells far near := by
  intro joined
  cases links with
  | across => exact loopless.apart member within absent joined.symm
  | back => exact loopless.apart member within absent joined

end Cell.Links

namespace Leads

variable {basis cells others before after : List Cell} {start stop middle line : Line}
  {cell other : Cell}

theorem cons_iff :
    Leads start (cell :: cells) stop ↔
      ∃ next, cell.Links start next ∧ Leads next cells stop := by
  constructor
  · intro leads
    cases leads with
    | fromRow rest => exact ⟨_, .across, rest⟩
    | fromCol rest => exact ⟨_, .back, rest⟩
  · rintro ⟨next, links, rest⟩
    cases links with
    | across => exact .fromRow rest
    | back => exact .fromCol rest

/-- The lines of the cells of a walk are joined to its start. -/
theorem joined_of_touches (leads : Leads start cells stop) (member : cell ∈ cells)
    (touches : line.touches cell = true) : Joined cells start line := by
  obtain ⟨before, after, rfl⟩ := List.append_of_mem member
  obtain ⟨middle, first, rest⟩ := leads.split
  obtain ⟨next, links, _⟩ := cons_iff.mp rest
  have reached : Joined (before ++ cell :: after) start middle :=
    first.joined (List.subset_append_left _ _)
  rcases (links.touches_iff line).mp touches with rfl | rfl
  · exact reached
  · exact reached.trans (links.joined member)

theorem countP_touches_eq_zero (leads : Leads start cells stop)
    (apart : ¬ Joined cells start line) : cells.countP line.touches = 0 := by
  rw [List.countP_eq_zero]
  exact fun cell member touches => apart (leads.joined_of_touches member touches)

/-- A walk through a forest meets every line at most twice, and its ends at most once. -/
theorem countP_touches_le (leads : Leads start cells stop) (loopless : Loopless basis)
    (within : cells ⊆ basis) (nodup : cells.Nodup) (line : Line) :
    cells.countP line.touches + (if line = start then 1 else 0) +
      (if line = stop then 1 else 0) ≤ 2 := by
  induction cells generalizing start with
  | nil =>
      rw [List.countP_nil]
      split <;> split <;> omega
  | cons cell rest induction =>
      obtain ⟨next, links, later⟩ := cons_iff.mp leads
      obtain ⟨member, restWithin⟩ := List.cons_subset.mp within
      obtain ⟨absent, restNodup⟩ := List.nodup_cons.mp nodup
      have apart : ¬ Joined rest next start := links.apart loopless member restWithin absent
      have bound := induction later restWithin restNodup
      rw [List.countP_cons, links.count_touches]
      by_cases atStart : line = start
      · subst atStart
        -- The walk does not come back to its start.
        have left : line ≠ stop := fun same =>
          apart (same ▸ later.joined (List.Subset.refl rest))
        rw [later.countP_touches_eq_zero apart, if_pos rfl, if_neg links.ne, if_neg left]
      · rw [if_neg atStart]
        omega

/-- A walk through a forest that uses no cell twice does not come back to its start. -/
theorem not_closed (leads : Leads start (cell :: cells) start) (loopless : Loopless basis)
    (within : cell :: cells ⊆ basis) (nodup : (cell :: cells).Nodup) : False := by
  obtain ⟨next, links, later⟩ := cons_iff.mp leads
  obtain ⟨member, restWithin⟩ := List.cons_subset.mp within
  obtain ⟨absent, _⟩ := List.nodup_cons.mp nodup
  exact links.apart loopless member restWithin absent (later.joined (List.Subset.refl cells))

/-- Two walks through a forest that use no cell twice and join the same lines begin with
the same cell. -/
theorem head_eq (leads : Leads start (cell :: cells) stop) (loopless : Loopless basis)
    (within : cell :: cells ⊆ basis) (nodup : (cell :: cells).Nodup)
    (again : Leads start (other :: others) stop) (othersWithin : other :: others ⊆ basis)
    (othersNodup : (other :: others).Nodup) : cell = other := by
  obtain ⟨next, links, later⟩ := cons_iff.mp leads
  obtain ⟨otherNext, otherLinks, otherLater⟩ := cons_iff.mp again
  obtain ⟨member, restWithin⟩ := List.cons_subset.mp within
  obtain ⟨otherMember, otherWithin⟩ := List.cons_subset.mp othersWithin
  by_contra different
  -- Otherwise the two walks close a loop through the first cell.
  have keep : ∀ {walk : List Cell}, walk ⊆ basis → cell ∉ walk →
      walk ⊆ basis.filter (· ≠ cell) := fun inside missing found present =>
    List.mem_filter.mpr ⟨inside present, by
      rw [decide_eq_true_eq]
      rintro rfl
      exact missing present⟩
  have absent : cell ∉ cells := (List.nodup_cons.mp nodup).1
  have elsewhere : cell ∉ others := fun found =>
    otherLinks.apart loopless otherMember otherWithin (List.nodup_cons.mp othersNodup).1
      (otherLater.joined_of_touches found ((links.touches_iff _).mpr (.inl rfl)))
  have otherKept : other ∈ basis.filter (· ≠ cell) :=
    List.mem_filter.mpr ⟨otherMember, by simpa using Ne.symm different⟩
  have there : Joined (basis.filter (· ≠ cell)) next stop :=
    later.joined (keep restWithin absent)
  have back : Joined (basis.filter (· ≠ cell)) start stop :=
    (otherLinks.joined otherKept).trans (otherLater.joined (keep otherWithin elsewhere))
  exact links.apart loopless member (List.filter_subset_self _) (by simp)
    (there.trans back.symm)

/-- Two walks through a forest that use no cell twice and join the same lines are the
same. -/
theorem unique (leads : Leads start cells stop) (loopless : Loopless basis)
    (within : cells ⊆ basis) (nodup : cells.Nodup) (again : Leads start others stop)
    (othersWithin : others ⊆ basis) (othersNodup : others.Nodup) : cells = others := by
  induction cells generalizing start others with
  | nil =>
      cases leads
      cases others with
      | nil => rfl
      | cons other rest => exact (again.not_closed loopless othersWithin othersNodup).elim
  | cons cell cells induction =>
      cases others with
      | nil =>
          cases again
          exact (leads.not_closed loopless within nodup).elim
      | cons other others =>
          obtain rfl : cell = other :=
            leads.head_eq loopless within nodup again othersWithin othersNodup
          obtain ⟨next, links, later⟩ := cons_iff.mp leads
          obtain ⟨otherNext, otherLinks, otherLater⟩ := cons_iff.mp again
          obtain rfl : otherNext = next := by
            rcases links.eq_or_swapped otherLinks with ⟨_, equal⟩ | ⟨equal, _⟩
            · exact equal
            · exact absurd equal links.ne
          rw [induction later (List.cons_subset.mp within).2 (List.nodup_cons.mp nodup).2
            otherLater (List.cons_subset.mp othersWithin).2
            (List.nodup_cons.mp othersNodup).2]

end Leads

/-- A walk along given cells that no other one is shorter than. -/
structure ShortestWalk (cells : List Cell) (start : Line) (walk : List Cell) (stop : Line) :
    Prop where
  leads : Leads start walk stop
  within : walk ⊆ cells
  least : ∀ other, Leads start other stop → other ⊆ cells → walk.length ≤ other.length

theorem ShortestWalk.nodup {cells walk : List Cell} {start stop : Line}
    (shortest : ShortestWalk cells start walk stop) : walk.Nodup := by
  induction walk generalizing start with
  | nil => exact List.nodup_nil
  | cons cell rest induction =>
      obtain ⟨next, links, later⟩ := Leads.cons_iff.mp shortest.leads
      obtain ⟨member, within⟩ := List.cons_subset.mp shortest.within
      have least := shortest.least
      refine List.nodup_cons.mpr ⟨fun found => ?_, induction ⟨later, within, ?_⟩⟩
      · -- Between the two uses of the cell there is a detour to cut.
        obtain ⟨before, after, rfl⟩ := List.append_of_mem found
        obtain ⟨middle, _, last⟩ := later.split
        obtain ⟨far, again, tail⟩ := Leads.cons_iff.mp last
        have tailWithin : after ⊆ cells :=
          fun other found => within (by simp [found])
        rcases links.eq_or_swapped again with ⟨rfl, rfl⟩ | ⟨rfl, rfl⟩
        · have shorter := least _ last (List.cons_subset.mpr ⟨member, tailWithin⟩)
          simp only [List.length_cons, List.length_append] at shorter
          omega
        · have shorter := least _ tail tailWithin
          simp only [List.length_cons, List.length_append] at shorter
          omega
      · intro other otherLeads otherWithin
        have longer := least (cell :: other) (Leads.cons_iff.mpr ⟨next, links, otherLeads⟩)
          (List.cons_subset.mpr ⟨member, otherWithin⟩)
        simpa using longer

theorem Leads.exists_shortest {cells walk : List Cell} {start stop : Line}
    (leads : Leads start walk stop) (within : walk ⊆ cells) :
    ∃ shortest, ShortestWalk cells start shortest stop := by
  classical
  let lengths : Nat → Prop := fun length =>
    ∃ other, Leads start other stop ∧ other ⊆ cells ∧ other.length = length
  have nonempty : ∃ length, lengths length := ⟨walk.length, walk, leads, within, rfl⟩
  obtain ⟨shortest, shortestLeads, shortestWithin, length⟩ := Nat.find_spec nonempty
  refine ⟨shortest, shortestLeads, shortestWithin, fun other otherLeads otherWithin => ?_⟩
  rw [length]
  exact Nat.find_min' nonempty ⟨other, otherLeads, otherWithin, rfl⟩

/-- In a forest the shortest walks are the walks that use no cell twice. -/
theorem Loopless.shortestWalk_iff {basis walk other : List Cell} {start stop : Line}
    (loopless : Loopless basis) (leads : Leads start walk stop) (within : walk ⊆ basis)
    (nodup : walk.Nodup) : ShortestWalk basis start other stop ↔ other = walk := by
  have only : ∀ {found}, ShortestWalk basis start found stop → found = walk :=
    fun shortest => shortest.leads.unique loopless shortest.within shortest.nodup leads within
      nodup
  refine ⟨only, ?_⟩
  rintro rfl
  obtain ⟨shortest, found⟩ := leads.exists_shortest within
  exact only found ▸ found

end OptimalPlans.Transport
