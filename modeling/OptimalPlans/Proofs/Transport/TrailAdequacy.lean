import OptimalPlans.Proofs.Transport.LineGraph

/-!
# Adequacy of the search for trails

`Leads` describes the walks along cells from line to line.  The search finds a trail
exactly when the two lines are joined, and the trail it finds is a walk from the one to
the other that uses no cell twice.
-/

namespace OptimalPlans.Transport

/-- The cells of a walk from one line to another, in their order. -/
inductive Leads : Line → List Cell → Line → Prop where
  | nil (line : Line) : Leads line [] line
  | fromRow {row col : Nat} {cells : List Cell} {stop : Line} :
      Leads (.col col) cells stop → Leads (.row row) (⟨row, col⟩ :: cells) stop
  | fromCol {row col : Nat} {cells : List Cell} {stop : Line} :
      Leads (.row row) cells stop → Leads (.col col) (⟨row, col⟩ :: cells) stop

namespace Leads

variable {start middle stop : Line} {cells before after : List Cell} {cell : Cell}

theorem append (first : Leads start before middle) (second : Leads middle after stop) :
    Leads start (before ++ after) stop := by
  induction first with
  | nil => exact second
  | fromRow _ induction => exact .fromRow (induction second)
  | fromCol _ induction => exact .fromCol (induction second)

theorem split (leads : Leads start (before ++ after) stop) :
    ∃ middle, Leads start before middle ∧ Leads middle after stop := by
  induction before generalizing start with
  | nil => exact ⟨start, .nil start, leads⟩
  | cons head before induction =>
      cases leads with
      | fromRow rest =>
          obtain ⟨middle, first, second⟩ := induction rest
          exact ⟨middle, .fromRow first, second⟩
      | fromCol rest =>
          obtain ⟨middle, first, second⟩ := induction rest
          exact ⟨middle, .fromCol first, second⟩

/-- The lines of a walk are joined by any cells that hold those of the walk. -/
theorem joined {others : List Cell} (leads : Leads start cells stop)
    (within : cells ⊆ others) : Joined others start stop := by
  induction leads with
  | nil line => exact Joined.refl line
  | fromRow _ induction =>
      obtain ⟨member, rest⟩ := List.cons_subset.mp within
      exact (Joined.of_mem member).trans (induction rest)
  | fromCol _ induction =>
      obtain ⟨member, rest⟩ := List.cons_subset.mp within
      exact (Joined.of_mem member).symm.trans (induction rest)

/-- Where the ends of a walk are joined otherwise, so are the two lines of each cell on
it. -/
theorem joined_of_bypass {others : List Cell}
    (leads : Leads start (before ++ cell :: after) stop)
    (withinBefore : before ⊆ others) (withinAfter : after ⊆ others)
    (closed : Joined others start stop) :
    Joined others (.row cell.row) (.col cell.col) := by
  obtain ⟨middle, first, rest⟩ := leads.split
  have reached : Joined others start middle := first.joined withinBefore
  cases rest with
  | fromRow last =>
      exact (reached.symm.trans closed).trans (last.joined withinAfter).symm
  | fromCol last =>
      exact ((reached.symm.trans closed).trans (last.joined withinAfter).symm).symm

end Leads

theorem Trail.extend?_eq_some_iff {trail next : Trail} {cell : Cell} :
    trail.extend? cell = some next ↔
      (trail.stop = .row cell.row ∧ next = ⟨.col cell.col, cell :: trail.cells⟩) ∨
        (trail.stop = .col cell.col ∧ next = ⟨.row cell.row, cell :: trail.cells⟩) := by
  unfold Trail.extend?
  by_cases atRow : trail.stop = .row cell.row
  · simp [atRow, eq_comm]
  · by_cases atCol : trail.stop = .col cell.col
    · simp [atCol, eq_comm]
    · simp [atRow, atCol]

theorem Line.touches_iff {line : Line} {cell : Cell} :
    line.touches cell = true ↔ line = .row cell.row ∨ line = .col cell.col := by
  simp [Line.touches]

theorem mem_untouched_iff {frontier : List Trail} {cells : List Cell} {cell : Cell} :
    cell ∈ untouched frontier cells ↔
      cell ∈ cells ∧ ∀ trail ∈ frontier, trail.stop.touches cell = false := by
  simp [untouched]

theorem mem_extensions_iff {frontier : List Trail} {cells : List Cell} {next : Trail} :
    next ∈ extensions frontier cells ↔
      ∃ trail ∈ frontier, ∃ cell ∈ cells, trail.extend? cell = some next := by
  simp [extensions]

/-! ## Soundness -/

/-- A trail from a line along given cells, none of which is still unused. -/
structure Trail.Walked (start : Line) (cells unused : List Cell) (trail : Trail) :
    Prop where
  leads : Leads start trail.cells.reverse trail.stop
  within : trail.cells ⊆ cells
  nodup : trail.cells.Nodup
  fresh : ∀ cell ∈ trail.cells, cell ∉ unused

theorem Trail.Walked.extend {start : Line} {cells unused : List Cell}
    {frontier : List Trail} {next : Trail} (unusedWithin : unused ⊆ cells)
    (walked : ∀ trail ∈ frontier, trail.Walked start cells unused)
    (extended : next ∈ extensions frontier unused) :
    next.Walked start cells (untouched frontier unused) := by
  obtain ⟨trail, trailMember, cell, cellMember, result⟩ := mem_extensions_iff.mp extended
  have earlier := walked trail trailMember
  have touched : trail.stop.touches cell = true := by
    rcases Trail.extend?_eq_some_iff.mp result with ⟨atRow, _⟩ | ⟨atCol, _⟩
    · exact Line.touches_iff.mpr (.inl atRow)
    · exact Line.touches_iff.mpr (.inr atCol)
  have cells_eq : next.cells = cell :: trail.cells := by
    rcases Trail.extend?_eq_some_iff.mp result with ⟨_, rfl⟩ | ⟨_, rfl⟩ <;> rfl
  have step : Leads trail.stop [cell] next.stop := by
    rcases Trail.extend?_eq_some_iff.mp result with ⟨atRow, rfl⟩ | ⟨atCol, rfl⟩
    · rw [atRow]
      exact .fromRow (.nil _)
    · rw [atCol]
      exact .fromCol (.nil _)
  constructor
  · rw [cells_eq, List.reverse_cons]
    exact earlier.leads.append step
  · rw [cells_eq]
    exact List.cons_subset.mpr ⟨unusedWithin cellMember, earlier.within⟩
  · rw [cells_eq]
    exact List.nodup_cons.mpr
      ⟨fun member => earlier.fresh cell member cellMember, earlier.nodup⟩
  · intro other member remains
    obtain ⟨stillUnused, untouchedBy⟩ := mem_untouched_iff.mp remains
    rw [cells_eq] at member
    rcases List.mem_cons.mp member with rfl | older
    · simp [untouchedBy trail trailMember] at touched
    · exact earlier.fresh other older stillUnused

theorem searchTrail_sound {start goal : Line} {cells : List Cell}
    (frontier : List Trail) (unused : List Cell) {found : Trail}
    (unusedWithin : unused ⊆ cells)
    (walked : ∀ trail ∈ frontier, trail.Walked start cells unused)
    (result : searchTrail goal frontier unused = some found) :
    found.stop = goal ∧ Leads start found.cells.reverse goal ∧
      found.cells ⊆ cells ∧ found.cells.Nodup := by
  fun_induction searchTrail goal frontier unused with
  | case1 frontier unused trail first =>
      obtain rfl := Option.some.inj result
      have atGoal : trail.stop = goal := by simpa using List.find?_some first
      have ends := walked trail (List.mem_of_find?_eq_some first)
      exact ⟨atGoal, atGoal ▸ ends.leads, ends.within, ends.nodup⟩
  | case2 frontier unused _ fewer induction =>
      refine induction ?_ (fun trail member => .extend unusedWithin walked member) result
      exact fun cell member => unusedWithin (mem_untouched_iff.mp member).1
  | case3 => simp at result

/-! ## Completeness -/

/-- Where the search fails there are lines, those of the frontier among them and the
goal not, that no unused cell leaves. -/
theorem searchTrail_none {goal : Line} (frontier : List Trail) (unused : List Cell)
    (failed : searchTrail goal frontier unused = none) :
    ∃ closed : Line → Prop, (∀ trail ∈ frontier, closed trail.stop) ∧ ¬ closed goal ∧
      ∀ cell ∈ unused, closed (.row cell.row) ↔ closed (.col cell.col) := by
  fun_induction searchTrail goal frontier unused with
  | case1 => simp at failed
  | case2 frontier unused missing fewer induction =>
      obtain ⟨closed, extended, goalOutside, carried⟩ := induction failed
      refine ⟨fun line => closed line ∨ ∃ trail ∈ frontier, trail.stop = line,
        fun trail member => .inr ⟨trail, member, rfl⟩, ?_, ?_⟩
      · rintro (inside | ⟨trail, member, atGoal⟩)
        · exact goalOutside inside
        · simpa [atGoal] using List.find?_eq_none.mp missing trail member
      · intro cell member
        have step : ∀ (trail next : Trail), trail ∈ frontier →
            trail.extend? cell = some next → closed next.stop :=
          fun trail next trailMember result => extended next
            (mem_extensions_iff.mpr ⟨trail, trailMember, cell, member, result⟩)
        by_cases touched : ∃ trail ∈ frontier, trail.stop.touches cell = true
        · obtain ⟨trail, trailMember, touches⟩ := touched
          rcases Line.touches_iff.mp touches with atRow | atCol
          · have other : closed (.col cell.col) := step trail ⟨_, _⟩ trailMember
              (Trail.extend?_eq_some_iff.mpr (.inl ⟨atRow, rfl⟩))
            exact iff_of_true (.inr ⟨trail, trailMember, atRow⟩) (.inl other)
          · have other : closed (.row cell.row) := step trail ⟨_, _⟩ trailMember
              (Trail.extend?_eq_some_iff.mpr (.inr ⟨atCol, rfl⟩))
            exact iff_of_true (.inl other) (.inr ⟨trail, trailMember, atCol⟩)
        · have untouchedBy : ∀ trail ∈ frontier, trail.stop.touches cell = false := by
            intro trail trailMember
            by_contra touches
            exact touched ⟨trail, trailMember, by simpa using touches⟩
          have offRow : ¬ ∃ trail ∈ frontier, trail.stop = .row cell.row := by
            rintro ⟨trail, trailMember, atRow⟩
            exact touched ⟨trail, trailMember, Line.touches_iff.mpr (.inl atRow)⟩
          have offCol : ¬ ∃ trail ∈ frontier, trail.stop = .col cell.col := by
            rintro ⟨trail, trailMember, atCol⟩
            exact touched ⟨trail, trailMember, Line.touches_iff.mpr (.inr atCol)⟩
          simpa [offRow, offCol] using
            carried cell (mem_untouched_iff.mpr ⟨member, untouchedBy⟩)
  | case3 frontier unused missing notFewer =>
      have all : untouched frontier unused = unused :=
        List.filter_sublist.eq_of_length_le (not_lt.mp notFewer)
      refine ⟨fun line => ∃ trail ∈ frontier, trail.stop = line,
        fun trail member => ⟨trail, member, rfl⟩, ?_, ?_⟩
      · rintro ⟨trail, member, atGoal⟩
        simpa [atGoal] using List.find?_eq_none.mp missing trail member
      · intro cell member
        have untouchedBy := (mem_untouched_iff.mp (all ▸ member)).2
        apply iff_of_false
        · rintro ⟨trail, trailMember, atRow⟩
          have touches := Line.touches_iff.mpr (.inl atRow : _ ∨ trail.stop = .col cell.col)
          simp [untouchedBy trail trailMember] at touches
        · rintro ⟨trail, trailMember, atCol⟩
          have touches := Line.touches_iff.mpr (.inr atCol : trail.stop = .row cell.row ∨ _)
          simp [untouchedBy trail trailMember] at touches

/-! ## Shortest trails -/

theorem shortestTrail_sound {cells found : List Cell} {start goal : Line}
    (result : shortestTrail cells start goal = some found) :
    Leads start found goal ∧ found ⊆ cells ∧ found.Nodup := by
  obtain ⟨trail, search, rfl⟩ := Option.map_eq_some_iff.mp result
  have walked : ∀ trail ∈ [(⟨start, []⟩ : Trail)], trail.Walked start cells cells := by
    intro trail member
    obtain rfl := List.mem_singleton.mp member
    exact ⟨.nil start, by simp, by simp, by simp⟩
  obtain ⟨_, leads, within, nodup⟩ :=
    searchTrail_sound _ _ (List.Subset.refl cells) walked search
  exact ⟨leads, List.reverse_subset.mpr within, List.nodup_reverse.mpr nodup⟩

/-- A trail is found exactly between lines that are joined. -/
theorem shortestTrail_isSome_iff {cells : List Cell} {start goal : Line} :
    (shortestTrail cells start goal).isSome ↔ Joined cells start goal := by
  constructor
  · intro found
    obtain ⟨trail, result⟩ := Option.isSome_iff_exists.mp found
    obtain ⟨leads, within, _⟩ := shortestTrail_sound result
    exact leads.joined within
  · intro joined
    by_contra missing
    have failed : searchTrail goal [⟨start, []⟩] cells = none := by
      simpa [shortestTrail] using missing
    obtain ⟨closed, starts, goalOutside, carried⟩ := searchTrail_none _ _ failed
    exact goalOutside (joined.carries carried (starts ⟨start, []⟩ (by simp)))

theorem isJoined_iff {cells : List Cell} {cell : Cell} :
    isJoined cells cell = true ↔ Joined cells (.row cell.row) (.col cell.col) :=
  shortestTrail_isSome_iff

end OptimalPlans.Transport
