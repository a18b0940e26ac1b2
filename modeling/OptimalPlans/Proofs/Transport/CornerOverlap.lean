import OptimalPlans.Proofs.Transport.ServingRules

/-!
# The corner rule in closed form

Let the quantities of the rows be laid end to end from some origin, and those of the columns
next to them from the same origin.  Then the walk from the corner ships in every cell the
length that its row and its column have in common.  What is shipped first at the corner of
the open lines is cut off both, and the other cells keep what they have in common.
-/

namespace OptimalPlans.Transport

/-! ## Cells served once -/

section Nodup

variable {allocations : List (Allocation Int)}

theorem shipped_eq_zero {cell : Cell} (absent : cell ∉ allocations.map (·.cell)) :
    shipped allocations cell = 0 := by
  apply List.sum_eq_zero
  intro amount member
  obtain ⟨allocation, listed, rfl⟩ := List.mem_map.mp member
  apply if_neg
  rintro rfl
  exact absent (List.mem_map_of_mem listed)

theorem shipped_eq_amount (nodup : (allocations.map (·.cell)).Nodup)
    {allocation : Allocation Int} (member : allocation ∈ allocations) :
    shipped allocations allocation.cell = allocation.amount := by
  induction allocations with
  | nil => cases member
  | cons first rest induction =>
      obtain ⟨fresh, distinct⟩ := List.nodup_cons.mp nodup
      rw [shipped_cons]
      rcases List.mem_cons.mp member with rfl | later
      · rw [if_pos rfl, shipped_eq_zero fresh, add_zero]
      · have different := ne_of_mem_of_not_mem (List.mem_map_of_mem later) fresh
        rw [if_neg different.symm, induction distinct later, zero_add]

/-- Where cells are served once, the allocation of a cell that ships is there. -/
theorem mem_of_shipped_eq (nodup : (allocations.map (·.cell)).Nodup)
    {allocation : Allocation Int} (ships : shipped allocations allocation.cell = allocation.amount)
    (some : allocation.amount ≠ 0) : allocation ∈ allocations := by
  have served : allocation.cell ∈ allocations.map (·.cell) := by
    by_contra absent
    exact some (ships.symm.trans (shipped_eq_zero absent))
  obtain ⟨other, member, cell⟩ := List.mem_map.mp served
  have amount := shipped_eq_amount nodup member
  rw [cell, ships] at amount
  obtain rfl : other = allocation := by
    cases other
    cases allocation
    rw [Allocation.mk.injEq]
    exact ⟨cell, amount.symm⟩
  exact member

end Nodup

/-! ## Lines laid end to end -/

/-- The quantities of the lines before a place taken together. -/
def totalBefore (quantities : List Int) (index : Nat) : Int :=
  (quantities.take index).sum

/-- The length that a row and a column have in common when the rows and the columns are laid
end to end from one origin. -/
def overlap (supply demand : List Int) (cell : Cell) : Int :=
  max 0 (min (totalBefore supply (cell.row + 1)) (totalBefore demand (cell.col + 1)) -
    max (totalBefore supply cell.row) (totalBefore demand cell.col))

section Lines

variable {quantities : List Int} {line index : Nat} {held : Int}

theorem totalBefore_succ (found : quantities[line]? = some held) :
    totalBefore quantities (line + 1) = totalBefore quantities line + held := by
  obtain ⟨bound, rfl⟩ := List.getElem?_eq_some_iff.mp found
  rw [totalBefore, totalBefore, List.sum_take_succ quantities line bound]

/-- Taking an amount from a line takes it from every total that holds the line. -/
theorem totalBefore_set (found : quantities[line]? = some held) (amount : Int) (index : Nat) :
    totalBefore (quantities.set line (held - amount)) index =
      totalBefore quantities index - if line < index then amount else 0 := by
  induction quantities generalizing line index with
  | nil => simp at found
  | cons quantity quantities induction =>
      cases index with
      | zero => simp [totalBefore]
      | succ index =>
          cases line with
          | zero =>
              obtain rfl : quantity = held := by simpa using found
              simp only [totalBefore, List.set_cons_zero, List.take_succ_cons, List.sum_cons,
                Nat.zero_lt_succ, if_true]
              ring
          | succ line =>
              have laterFound : quantities[line]? = some held := by simpa using found
              have later := induction laterFound index
              simp only [totalBefore, List.set_cons_succ, List.take_succ_cons, List.sum_cons,
                Nat.succ_lt_succ_iff] at later ⊢
              rw [later]
              ring

theorem le_totalBefore (nonneg : ∀ held ∈ quantities, 0 ≤ held)
    (found : quantities[line]? = some held) (within : line < index) :
    held ≤ totalBefore quantities index := by
  obtain ⟨bound, rfl⟩ := List.getElem?_eq_some_iff.mp found
  apply List.single_le_sum
  · intro other member
    exact nonneg other (List.mem_of_mem_take member)
  · exact List.mem_take_iff_getElem.mpr ⟨line, by omega, rfl⟩

theorem totalBefore_mono (nonneg : ∀ held ∈ quantities, 0 ≤ held) (index : Nat) :
    totalBefore quantities index ≤ totalBefore quantities (index + 1) := by
  rw [totalBefore, totalBefore, List.take_add_one, List.sum_append]
  apply Int.le_add_of_nonneg_right
  apply List.sum_nonneg
  intro held member
  exact nonneg held (List.mem_of_getElem? (Option.mem_toList.mp member))

/-- Lines that are not open add nothing to a total. -/
theorem totalBefore_eq_zero (closed : ∀ line < index, isOpen quantities line = false) :
    totalBefore quantities index = 0 := by
  apply List.sum_eq_zero
  intro held member
  obtain ⟨line, bound, rfl⟩ := List.mem_take_iff_getElem.mp member
  by_contra some
  have opened : isOpen quantities line = true :=
    isOpen_iff.mpr ⟨_, List.getElem?_eq_getElem (by omega), some⟩
  rw [closed line (by omega)] at opened
  cases opened

/-- No line before the first open one is open. -/
theorem le_of_isOpen (first : (openLines quantities).head? = some line)
    (opened : isOpen quantities index = true) : line ≤ index := by
  have member : index ∈ openLines quantities := mem_openLines_iff.mpr (isOpen_iff.mp opened)
  have ascends : (openLines quantities).Pairwise (· < ·) := List.pairwise_lt_range.filter _
  obtain ⟨later, lines⟩ := List.head?_eq_some_iff.mp first
  rw [lines] at member ascends
  rcases List.mem_cons.mp member with rfl | behind
  · exact le_rfl
  · exact ((List.pairwise_cons.mp ascends).1 index behind).le

theorem totalBefore_eq_zero_of_first (first : (openLines quantities).head? = some line)
    (before : index ≤ line) : totalBefore quantities index = 0 := by
  apply totalBefore_eq_zero
  intro other earlier
  by_contra opened
  have later := le_of_isOpen first (Bool.eq_true_of_not_eq_false opened)
  omega

/-- A line lies before the first open line, with nothing up to its end, or is that line, or
lies behind it. -/
theorem totalBefore_cases (nonneg : ∀ held ∈ quantities, 0 ≤ held)
    (first : (openLines quantities).head? = some line) (found : quantities[line]? = some held)
    (index : Nat) :
    (index < line ∧ totalBefore quantities index = 0 ∧ totalBefore quantities (index + 1) = 0) ∨
    (index = line ∧ totalBefore quantities index = 0 ∧
      totalBefore quantities (index + 1) = held) ∨
    (line < index ∧ held ≤ totalBefore quantities index ∧
      totalBefore quantities index ≤ totalBefore quantities (index + 1)) := by
  rcases Nat.lt_trichotomy index line with before | rfl | behind
  · left
    exact ⟨before, totalBefore_eq_zero_of_first first before.le,
      totalBefore_eq_zero_of_first first before⟩
  · right
    left
    have nothing := totalBefore_eq_zero_of_first first le_rfl
    refine ⟨rfl, nothing, ?_⟩
    rw [totalBefore_succ found, nothing, zero_add]
  · right
    right
    exact ⟨behind, le_totalBefore nonneg found behind, totalBefore_mono nonneg index⟩

theorem totalBefore_eq_zero_of_closed (closed : openLines quantities = []) (index : Nat) :
    totalBefore quantities index = 0 := by
  apply totalBefore_eq_zero
  intro line _
  by_contra opened
  have member : line ∈ openLines quantities :=
    mem_openLines_iff.mpr (isOpen_iff.mp (Bool.eq_true_of_not_eq_false opened))
  rw [closed] at member
  cases member

end Lines

/-! ## One step -/

section Step

variable {supply demand : List Int} {corner : Cell} {available wanted : Int}

theorem overlap_of_closed (closed : Closed supply demand) (cell : Cell) :
    overlap supply demand cell = 0 := by
  unfold overlap
  rcases closed with rows | cols
  · rw [totalBefore_eq_zero_of_closed rows, totalBefore_eq_zero_of_closed rows]
    omega
  · rw [totalBefore_eq_zero_of_closed cols, totalBefore_eq_zero_of_closed cols]
    omega

/-- What is served at the corner of the open lines is cut off the overlap of the corner, and
no other cell loses or gains any. -/
theorem overlap_serve (supplyNonneg : ∀ held ∈ supply, 0 ≤ held)
    (demandNonneg : ∀ held ∈ demand, 0 ≤ held)
    (firstRow : (openLines supply).head? = some corner.row)
    (firstCol : (openLines demand).head? = some corner.col)
    (availableFound : supply[corner.row]? = some available)
    (wantedFound : demand[corner.col]? = some wanted) (cell : Cell) :
    overlap supply demand cell =
      (if corner = cell then min available wanted else 0) +
        overlap (supply.set corner.row (available - min available wanted))
          (demand.set corner.col (wanted - min available wanted)) cell := by
  have availableNonneg := supplyNonneg _ (List.mem_of_getElem? availableFound)
  have wantedNonneg := demandNonneg _ (List.mem_of_getElem? wantedFound)
  simp only [overlap, totalBefore_set availableFound, totalBefore_set wantedFound,
    Cell.eq_iff]
  -- Each line of the cell lies before the corner, at it or behind it.
  rcases totalBefore_cases supplyNonneg firstRow availableFound cell.row with
    ⟨rowPlace, rowStart, rowStop⟩ | ⟨rowPlace, rowStart, rowStop⟩ |
      ⟨rowPlace, rowStart, rowStop⟩ <;>
  rcases totalBefore_cases demandNonneg firstCol wantedFound cell.col with
    ⟨colPlace, colStart, colStop⟩ | ⟨colPlace, colStart, colStop⟩ |
      ⟨colPlace, colStart, colStop⟩ <;>
  · simp (disch := omega) only [if_pos, if_neg]
    omega

end Step

/-! ## Runs -/

section Runs

variable {supply demand supplyLeft demandLeft : List Int} {allocations : List (Allocation Int)}

/-- The walk ships in every cell what its row and its column have in common. -/
theorem Follows.shipped_eq_overlap
    (follows : Follows cornerChoice supply demand allocations supplyLeft demandLeft)
    (supplyNonneg : ∀ held ∈ supply, 0 ≤ held) (demandNonneg : ∀ held ∈ demand, 0 ≤ held)
    (cell : Cell) : shipped allocations cell = overlap supply demand cell := by
  induction follows with
  | stop none => rw [shipped_nil, overlap_of_closed (closed_of_cornerChoice none)]
  | serve chosen availableFound wantedFound _ induction =>
      obtain ⟨firstRow, firstCol⟩ := cornerChoice_eq_some_iff.mp chosen
      rw [shipped_cons, overlap_serve supplyNonneg demandNonneg firstRow firstCol availableFound
        wantedFound, induction]
      · exact nonneg_set supplyNonneg _ (by omega)
      · exact nonneg_set demandNonneg _ (by omega)

/-- What is served after a cell of the walk lies behind it. -/
theorem Follows.corner_ascends
    (follows : Follows cornerChoice supply demand allocations supplyLeft demandLeft) :
    (allocations.map (·.cell)).Pairwise Cell.Before := by
  induction follows with
  | stop => exact List.Pairwise.nil
  | serve chosen availableFound wantedFound later induction =>
      have run := Follows.serve chosen availableFound wantedFound later
      have serves := run.serves (cornerChoice_opens _ _)
      obtain ⟨firstRow, firstCol⟩ := cornerChoice_eq_some_iff.mp chosen
      obtain ⟨fresh, -⟩ := List.nodup_cons.mp serves.basic.2
      apply List.Pairwise.cons
      · intro other member
        obtain ⟨allocation, listed, rfl⟩ := List.mem_map.mp member
        obtain ⟨rowOpen, colOpen⟩ := serves.isOpen (List.mem_cons_of_mem _ listed)
        have rowBehind := le_of_isOpen firstRow rowOpen
        have colBehind := le_of_isOpen firstCol colOpen
        have different := ne_of_mem_of_not_mem member fresh
        exact Cell.before_of_le rowBehind colBehind different.symm
      · exact induction

end Runs

/-! ## The closed form -/

/-- What the rows and the columns have in common, cell by cell in row-major order. -/
def overlaps (supply demand : List Int) : List (Allocation Int) :=
  ((Cell.all supply.length demand.length).map fun cell =>
    (⟨cell, overlap supply demand cell⟩ : Allocation Int)).filter (0 < ·.amount)

theorem mem_overlaps_iff {supply demand : List Int} {allocation : Allocation Int} :
    allocation ∈ overlaps supply demand ↔
      allocation.cell.InTable supply.length demand.length ∧
        overlap supply demand allocation.cell = allocation.amount ∧ 0 < allocation.amount := by
  rw [overlaps, List.mem_filter, List.mem_map, decide_eq_true_iff]
  constructor
  · rintro ⟨⟨cell, listed, rfl⟩, positive⟩
    exact ⟨Cell.mem_all_iff.mp listed, rfl, positive⟩
  · rintro ⟨inTable, same, positive⟩
    exact ⟨⟨_, Cell.mem_all_iff.mpr inTable, same ▸ rfl⟩, positive⟩

theorem overlaps_ascends (supply demand : List Int) :
    ((overlaps supply demand).map (·.cell)).Pairwise Cell.Before := by
  have listed : ((Cell.all supply.length demand.length).map fun cell =>
      (⟨cell, overlap supply demand cell⟩ : Allocation Int)).map (·.cell) =
        Cell.all supply.length demand.length := by
    rw [List.map_map]
    exact List.map_id _
  apply List.Pairwise.sublist (List.filter_sublist.map _)
  rw [listed]
  exact Cell.pairwise_all _ _

/-- The walk lists what the rows and the columns have in common. -/
theorem Follows.eq_overlaps {supply demand supplyLeft demandLeft : List Int}
    {allocations : List (Allocation Int)}
    (follows : Follows cornerChoice supply demand allocations supplyLeft demandLeft)
    (supplyNonneg : ∀ held ∈ supply, 0 ≤ held) (demandNonneg : ∀ held ∈ demand, 0 ≤ held) :
    allocations = overlaps supply demand := by
  have serves := follows.serves (cornerChoice_opens _ _)
  have ships := serves.ships (closed_of_cornerChoice follows.chooses_none) supplyNonneg
    demandNonneg
  have amounts := follows.shipped_eq_overlap supplyNonneg demandNonneg
  have same : ∀ allocation, allocation ∈ allocations ↔ allocation ∈ overlaps supply demand := by
    intro allocation
    rw [mem_overlaps_iff, ← amounts]
    constructor
    · intro member
      exact ⟨serves.inTable member, shipped_eq_amount serves.basic.2 member,
        ships.positive allocation member⟩
    · rintro ⟨-, amount, positive⟩
      exact mem_of_shipped_eq serves.basic.2 amount positive.ne'
  have ascends := List.pairwise_map.mp follows.corner_ascends
  have listed := List.pairwise_map.mp (overlaps_ascends supply demand)
  have permutation : allocations.Perm (overlaps supply demand) := by
    apply (List.perm_ext_iff_of_nodup _ _).mpr same
    · exact ascends.imp fun before same => before.ne (congrArg _ same)
    · exact listed.imp fun before same => before.ne (congrArg _ same)
  exact permutation.eq_of_pairwise
    (fun _ _ _ _ before behind => absurd behind before.asymm) ascends listed

/-- The walk from the corner ships what the rows and the columns have in common when they are
laid end to end, and no cost changes it. -/
theorem northWest_eq_overlaps (cost : Table Number) {supply demand : List Int}
    (supplyNonneg : ∀ held ∈ supply, 0 ≤ held) (demandNonneg : ∀ held ∈ demand, 0 ≤ held) :
    northWest ⟨cost, supply.map .integer, demand.map .integer⟩ =
      .ok (readAllocations (overlaps supply demand)) := by
  obtain ⟨allocations, supplyLeft, demandLeft, result, follows⟩ :=
    northWestFrom_follows 0 0 supply demand supplyNonneg demandNonneg
  have listed : allocations = overlaps supply demand :=
    follows.eq_overlaps supplyNonneg demandNonneg
  rw [← listed]
  exact result

/-- Rows and columns of nothing are passed by, and what is supplied too much is left. -/
theorem idle_lines_are_passed_by :
    northWest ⟨[], [0, 3, 0, 4].map .integer, [2, 0, 1, 2].map .integer⟩ =
      .ok (readAllocations [⟨⟨1, 0⟩, 2⟩, ⟨⟨1, 2⟩, 1⟩, ⟨⟨3, 3⟩, 2⟩]) :=
  northWest_eq_overlaps [] (by decide) (by decide)

end OptimalPlans.Transport
