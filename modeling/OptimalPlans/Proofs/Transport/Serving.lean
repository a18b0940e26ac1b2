import OptimalPlans.Proofs.Transport.TableTotal
import OptimalPlans.Proofs.Transport.TrailAdequacy
import OptimalPlans.Transport.Penalty

/-!
# Serving cells

Every rule for a first plan serves one cell after the other.  A served cell has two open
lines and ships the smaller of their quantities, so that one of the lines is used up.  A
run of such steps ships no more than the lines have.  Its cells form no loop, because a
line that was used up is not served again.  Where all rows or all columns are used up, the
run has shipped all there was to ship.
-/

namespace OptimalPlans.Transport

/-- The quantity of a line, zero outside the table. -/
def lineQuantity (supply demand : List Int) : Line → Int
  | .row index => supply[index]?.getD 0
  | .col index => demand[index]?.getD 0

/-- Allocations that ship no more than the lines have and use up all rows or all
columns. -/
structure Ships (supply demand : List Int) (allocations : List (Allocation Int)) :
    Prop where
  inTable : ∀ allocation ∈ allocations,
    allocation.cell.InTable supply.length demand.length
  positive : ∀ allocation ∈ allocations, 0 < allocation.amount
  within : ∀ line, lineTotal supply.length demand.length (shipped allocations) line ≤
    lineQuantity supply demand line
  exhausts : (∀ row, lineTotal supply.length demand.length (shipped allocations)
      (.row row) = lineQuantity supply demand (.row row)) ∨
    ∀ col, lineTotal supply.length demand.length (shipped allocations) (.col col) =
      lineQuantity supply demand (.col col)

/-! ## Open lines -/

section OpenLines

variable {quantities : List Int} {index : Nat}

theorem isOpen_iff : isOpen quantities index = true ↔
    ∃ held, quantities[index]? = some held ∧ held ≠ 0 := by
  unfold isOpen
  cases quantities[index]? with
  | none => simp
  | some held => simp

theorem mem_openLines_iff : index ∈ openLines quantities ↔
    ∃ held, quantities[index]? = some held ∧ held ≠ 0 := by
  rw [openLines, List.mem_filter, isOpen_iff, List.mem_range]
  constructor
  · exact fun both => both.2
  · rintro ⟨held, found, some⟩
    exact ⟨(List.getElem?_eq_some_iff.mp found).1, held, found, some⟩

theorem isOpen_set (bound : index < quantities.length) (value : Int) (other : Nat) :
    isOpen (quantities.set index value) other =
      if other = index then decide (value ≠ 0) else isOpen quantities other := by
  unfold isOpen
  by_cases same : other = index
  · subst same
    simp [bound]
  · simp [same, Ne.symm same]

/-- A line that is open after it was served was open before. -/
theorem isOpen_of_set {other : Nat} {held value : Int}
    (found : quantities[index]? = some held) (some : held ≠ 0)
    (opened : isOpen (quantities.set index value) other = true) :
    isOpen quantities other = true := by
  obtain ⟨bound, _⟩ := List.getElem?_eq_some_iff.mp found
  rw [isOpen_set bound] at opened
  split at opened
  next same => exact same ▸ isOpen_iff.mpr ⟨held, found, some⟩
  next => exact opened

theorem length_openLines_set_le (member : index ∈ openLines quantities) (value : Int) :
    (openLines (quantities.set index value)).length ≤ (openLines quantities).length := by
  obtain ⟨held, found, some⟩ := mem_openLines_iff.mp member
  unfold openLines
  rw [List.length_set, ← List.countP_eq_length_filter, ← List.countP_eq_length_filter]
  apply List.countP_mono_left
  intro other _ opened
  exact isOpen_of_set found some opened

/-- Using up a line closes it. -/
theorem length_openLines_set_zero (member : index ∈ openLines quantities) :
    (openLines (quantities.set index 0)).length < (openLines quantities).length := by
  obtain ⟨held, found, _⟩ := mem_openLines_iff.mp member
  obtain ⟨bound, _⟩ := List.getElem?_eq_some_iff.mp found
  have closed : openLines (quantities.set index 0) =
      (openLines quantities).filter (· ≠ index) := by
    unfold openLines
    rw [List.length_set, List.filter_filter]
    apply List.filter_congr
    intro other _
    rw [isOpen_set bound]
    by_cases same : other = index <;> simp [same]
  rw [closed]
  exact List.length_filter_lt_length_iff_exists.mpr ⟨index, member, by simp⟩

end OpenLines

/-! ## Serving a cell -/

theorem takeAt_eq_ok {quantities : List Int} {index : Nat} {held : Int}
    (found : quantities[index]? = some held) (amount : Int) :
    takeAt quantities index amount = .ok (quantities.set index (held - amount)) := by
  simp [takeAt, entryAt, found]

theorem nonneg_set {quantities : List Int} (nonneg : ∀ held ∈ quantities, 0 ≤ held)
    (index : Nat) {value : Int} (valueNonneg : 0 ≤ value) :
    ∀ held ∈ quantities.set index value, 0 ≤ held := by
  intro held member
  rcases List.mem_or_eq_of_mem_set member with old | rfl
  · exact nonneg held old
  · exact valueNonneg

/-- Serving a cell takes its amount from its two lines and from no other. -/
theorem lineQuantity_set {supply demand : List Int} {cell : Cell} {available wanted : Int}
    (availableFound : supply[cell.row]? = some available)
    (wantedFound : demand[cell.col]? = some wanted) (amount : Int) (line : Line) :
    lineQuantity (supply.set cell.row (available - amount))
        (demand.set cell.col (wanted - amount)) line =
      lineQuantity supply demand line - if line.touches cell then amount else 0 := by
  obtain ⟨row, col⟩ := cell
  cases line with
  | row index =>
      by_cases same : index = row
      · subst same
        obtain ⟨bound, rfl⟩ := List.getElem?_eq_some_iff.mp availableFound
        simp [lineQuantity, Line.touches, show index < supply.length from bound]
      · simp [lineQuantity, Line.touches, same, Ne.symm same]
  | col index =>
      by_cases same : index = col
      · subst same
        obtain ⟨bound, rfl⟩ := List.getElem?_eq_some_iff.mp wantedFound
        simp [lineQuantity, Line.touches, show index < demand.length from bound]
      · simp [lineQuantity, Line.touches, same, Ne.symm same]

theorem lineTotal_shipped_cons {rows cols : Nat} {allocation : Allocation Int}
    (inTable : allocation.cell.InTable rows cols) (rest : List (Allocation Int))
    (line : Line) :
    lineTotal rows cols (shipped (allocation :: rest)) line =
      (if line.touches allocation.cell then allocation.amount else 0) +
        lineTotal rows cols (shipped rest) line := by
  have parts : shipped (allocation :: rest) = fun cell =>
      (if allocation.cell = cell then allocation.amount else 0) + shipped rest cell :=
    funext (shipped_cons allocation rest)
  rw [parts, lineTotal_add, lineTotal_single inTable fun _ => allocation.amount]

theorem lineQuantity_nonneg {supply demand : List Int}
    (supplyNonneg : ∀ held ∈ supply, 0 ≤ held) (demandNonneg : ∀ held ∈ demand, 0 ≤ held)
    (line : Line) : 0 ≤ lineQuantity supply demand line := by
  have each : ∀ (quantities : List Int) (index : Nat), (∀ held ∈ quantities, 0 ≤ held) →
      0 ≤ quantities[index]?.getD 0 := by
    intro quantities index nonneg
    cases found : quantities[index]? with
    | none => exact le_refl 0
    | some held => exact nonneg held (List.mem_of_getElem? found)
  cases line with
  | row index => exact each supply index supplyNonneg
  | col index => exact each demand index demandNonneg

theorem getD_of_not_mem_openLines {quantities : List Int} {index : Nat}
    (closed : index ∉ openLines quantities) : quantities[index]?.getD 0 = 0 := by
  cases found : quantities[index]? with
  | none => rfl
  | some held =>
      by_contra some
      exact closed (mem_openLines_iff.mpr ⟨held, found, some⟩)

theorem getD_of_openLines_eq_nil {quantities : List Int} (closed : openLines quantities = [])
    (index : Nat) : quantities[index]?.getD 0 = 0 :=
  getD_of_not_mem_openLines (closed ▸ List.not_mem_nil)

/-- Where all rows or all columns are used up nothing has to be shipped. -/
theorem Ships.nil {supply demand : List Int} (supplyNonneg : ∀ held ∈ supply, 0 ≤ held)
    (demandNonneg : ∀ held ∈ demand, 0 ≤ held)
    (closed : openLines supply = [] ∨ openLines demand = []) : Ships supply demand [] := by
  have nothing : ∀ line, lineTotal supply.length demand.length (shipped []) line = 0 := by
    intro line
    cases line <;> simp [lineTotal, rowTotal, colTotal, shipped_nil]
  refine ⟨by simp, by simp, fun line => ?_, ?_⟩
  · rw [nothing]
    exact lineQuantity_nonneg supplyNonneg demandNonneg line
  · refine closed.imp (fun none row => ?_) fun none col => ?_
    · rw [nothing, lineQuantity, getD_of_openLines_eq_nil none]
    · rw [nothing, lineQuantity, getD_of_openLines_eq_nil none]

/-- Serving one more cell first. -/
theorem Ships.cons {supply demand : List Int} {cell : Cell} {available wanted amount : Int}
    {later : List (Allocation Int)} (availableFound : supply[cell.row]? = some available)
    (wantedFound : demand[cell.col]? = some wanted) (positive : 0 < amount)
    (ships : Ships (supply.set cell.row (available - amount))
      (demand.set cell.col (wanted - amount)) later) :
    Ships supply demand (⟨cell, amount⟩ :: later) := by
  obtain ⟨rowBound, _⟩ := List.getElem?_eq_some_iff.mp availableFound
  obtain ⟨colBound, _⟩ := List.getElem?_eq_some_iff.mp wantedFound
  obtain ⟨laterInTable, laterPositive, within, exhausts⟩ := ships
  simp only [List.length_set] at laterInTable within exhausts
  have total : ∀ line, lineTotal supply.length demand.length
      (shipped (⟨cell, amount⟩ :: later)) line = (if line.touches cell then amount else 0) +
        lineTotal supply.length demand.length (shipped later) line :=
    lineTotal_shipped_cons ⟨rowBound, colBound⟩ later
  have quantity := lineQuantity_set availableFound wantedFound amount
  refine ⟨?_, ?_, fun line => ?_, exhausts.imp (fun equal row => ?_) fun equal col => ?_⟩
  · intro allocation member
    rcases List.mem_cons.mp member with rfl | old
    · exact ⟨rowBound, colBound⟩
    · exact laterInTable allocation old
  · intro allocation member
    rcases List.mem_cons.mp member with rfl | old
    · exact positive
    · exact laterPositive allocation old
  · have bound := within line
    rw [quantity] at bound
    rw [total]
    omega
  · have equal := equal row
    rw [quantity] at equal
    rw [total]
    omega
  · have equal := equal col
    rw [quantity] at equal
    rw [total]
    omega

/-- Serving a cell with the smaller quantity closes one of its lines. -/
theorem length_openLines_serve {supply demand : List Int} {cell : Cell}
    {available wanted : Int} (availableFound : supply[cell.row]? = some available)
    (wantedFound : demand[cell.col]? = some wanted) (availableSome : available ≠ 0)
    (wantedSome : wanted ≠ 0) :
    (openLines (supply.set cell.row (available - min available wanted))).length +
        (openLines (demand.set cell.col (wanted - min available wanted))).length <
      (openLines supply).length + (openLines demand).length := by
  have rowOpen : cell.row ∈ openLines supply :=
    mem_openLines_iff.mpr ⟨available, availableFound, availableSome⟩
  have colOpen : cell.col ∈ openLines demand :=
    mem_openLines_iff.mpr ⟨wanted, wantedFound, wantedSome⟩
  rcases le_total available wanted with less | more
  · rw [min_eq_left less, sub_self]
    have closed := length_openLines_set_zero rowOpen
    have kept := length_openLines_set_le colOpen (wanted - available)
    omega
  · rw [min_eq_right more, sub_self]
    have closed := length_openLines_set_zero colOpen
    have kept := length_openLines_set_le rowOpen (available - wanted)
    omega

/-! ## Lines that are not touched -/

/-- A line that no cell touches is joined to no other line. -/
theorem Joined.eq_of_untouched {cells : List Cell} {line other : Line}
    (untouched : ∀ cell ∈ cells, line.touches cell = false)
    (joined : Joined cells line other) : other = line := by
  let same : Line → Prop := fun reached => reached = line
  have carried : ∀ cell ∈ cells, same (.row cell.row) ↔ same (.col cell.col) := by
    intro cell member
    have apart : ¬ (line = .row cell.row ∨ line = .col cell.col) := by
      rw [← Line.touches_iff, untouched cell member]
      exact Bool.false_ne_true
    obtain ⟨notRow, notCol⟩ := not_or.mp apart
    exact iff_of_false (Ne.symm notRow) (Ne.symm notCol)
  exact joined.carries carried rfl

/-- A cell with a line of its own closes no loop. -/
theorem Loopless.cons_of_untouched {cells : List Cell} {cell : Cell} {line : Line}
    (loopless : Loopless cells) (touched : line.touches cell = true)
    (untouched : ∀ other ∈ cells, line.touches other = false) :
    Loopless (cell :: cells) := by
  have apart : ¬ Joined cells (.row cell.row) (.col cell.col) := by
    intro joined
    rcases Line.touches_iff.mp touched with rfl | rfl
    · cases joined.eq_of_untouched untouched
    · cases joined.symm.eq_of_untouched untouched
  apply (loopless.concat apart).mono
  intro other member
  rcases List.mem_cons.mp member with rfl | old
  · exact List.mem_append_right _ List.mem_cons_self
  · exact List.mem_append_left _ old

/-! ## Runs -/

/-- All rows or all columns are used up. -/
def Closed (supply demand : List Int) : Prop :=
  openLines supply = [] ∨ openLines demand = []

/-- Runs that serve open cells one after the other, from the first quantities to those
that are left. -/
inductive Serves : List Int → List Int → List (Allocation Int) → List Int → List Int → Prop
  | stop (supply demand : List Int) : Serves supply demand [] supply demand
  | serve {supply demand supplyLeft demandLeft : List Int} {cell : Cell}
      {available wanted : Int} {later : List (Allocation Int)} :
      supply[cell.row]? = some available → demand[cell.col]? = some wanted →
      available ≠ 0 → wanted ≠ 0 →
      Serves (supply.set cell.row (available - min available wanted))
        (demand.set cell.col (wanted - min available wanted)) later supplyLeft demandLeft →
      Serves supply demand (⟨cell, min available wanted⟩ :: later) supplyLeft demandLeft

namespace Serves

variable {supply demand supplyLeft demandLeft : List Int}
  {allocations : List (Allocation Int)}

/-- Only open cells are served. -/
theorem isOpen (serves : Serves supply demand allocations supplyLeft demandLeft)
    {allocation : Allocation Int} (member : allocation ∈ allocations) :
    Transport.isOpen supply allocation.cell.row = true ∧
      Transport.isOpen demand allocation.cell.col = true := by
  induction serves with
  | stop => cases member
  | serve availableFound wantedFound availableSome wantedSome _ induction =>
      rcases List.mem_cons.mp member with rfl | old
      · exact ⟨isOpen_iff.mpr ⟨_, availableFound, availableSome⟩,
          isOpen_iff.mpr ⟨_, wantedFound, wantedSome⟩⟩
      · obtain ⟨rowOpen, colOpen⟩ := induction old
        exact ⟨isOpen_of_set availableFound availableSome rowOpen,
          isOpen_of_set wantedFound wantedSome colOpen⟩

theorem inTable (serves : Serves supply demand allocations supplyLeft demandLeft)
    {allocation : Allocation Int} (member : allocation ∈ allocations) :
    allocation.cell.InTable supply.length demand.length := by
  obtain ⟨rowOpen, colOpen⟩ := serves.isOpen member
  obtain ⟨_, rowFound, _⟩ := isOpen_iff.mp rowOpen
  obtain ⟨_, colFound, _⟩ := isOpen_iff.mp colOpen
  exact ⟨(List.getElem?_eq_some_iff.mp rowFound).1, (List.getElem?_eq_some_iff.mp colFound).1⟩

/-- A run never serves a line again that the smaller quantity used up. -/
theorem exists_untouched {cell : Cell} {available wanted : Int}
    (availableFound : supply[cell.row]? = some available)
    (wantedFound : demand[cell.col]? = some wanted)
    (serves : Serves (supply.set cell.row (available - min available wanted))
      (demand.set cell.col (wanted - min available wanted)) allocations supplyLeft
        demandLeft) :
    ∃ line : Line, line.touches cell = true ∧
      ∀ other ∈ allocations.map (·.cell), line.touches other = false := by
  obtain ⟨rowBound, _⟩ := List.getElem?_eq_some_iff.mp availableFound
  obtain ⟨colBound, _⟩ := List.getElem?_eq_some_iff.mp wantedFound
  -- The line that the smaller quantity uses up is closed to everything that follows.
  rcases le_total available wanted with less | more
  · refine ⟨.row cell.row, by simp [Line.touches], fun other member => ?_⟩
    obtain ⟨allocation, listed, rfl⟩ := List.mem_map.mp member
    have opened := (serves.isOpen listed).1
    rw [min_eq_left less, sub_self, isOpen_set rowBound] at opened
    have different : cell.row ≠ allocation.cell.row := by
      intro same
      simp [same] at opened
    simp [Line.touches, different]
  · refine ⟨.col cell.col, by simp [Line.touches], fun other member => ?_⟩
    obtain ⟨allocation, listed, rfl⟩ := List.mem_map.mp member
    have opened := (serves.isOpen listed).2
    rw [min_eq_right more, sub_self, isOpen_set colBound] at opened
    have different : cell.col ≠ allocation.cell.col := by
      intro same
      simp [same] at opened
    simp [Line.touches, different]

/-- The cells of a run form no loop, and none of them is served twice. -/
theorem basic (serves : Serves supply demand allocations supplyLeft demandLeft) :
    Loopless (allocations.map (·.cell)) ∧ (allocations.map (·.cell)).Nodup := by
  induction serves with
  | stop => exact ⟨Loopless.nil, List.nodup_nil⟩
  | serve availableFound wantedFound _ _ later induction =>
      obtain ⟨loopless, nodup⟩ := induction
      obtain ⟨line, touched, untouched⟩ :=
        exists_untouched availableFound wantedFound later
      refine ⟨loopless.cons_of_untouched touched untouched, ?_⟩
      apply List.nodup_cons.mpr
      refine ⟨fun member => ?_, nodup⟩
      rw [untouched _ member] at touched
      cases touched

/-- A run that goes on until all rows or all columns are used up ships what there is. -/
theorem ships (serves : Serves supply demand allocations supplyLeft demandLeft)
    (closed : Closed supplyLeft demandLeft) (supplyNonneg : ∀ held ∈ supply, 0 ≤ held)
    (demandNonneg : ∀ held ∈ demand, 0 ≤ held) : Ships supply demand allocations := by
  induction serves with
  | stop => exact Ships.nil supplyNonneg demandNonneg closed
  | serve availableFound wantedFound availableSome wantedSome _ induction =>
      have availableNonneg := supplyNonneg _ (List.mem_of_getElem? availableFound)
      have wantedNonneg := demandNonneg _ (List.mem_of_getElem? wantedFound)
      apply Ships.cons availableFound wantedFound (by omega)
      apply induction closed
      · exact nonneg_set supplyNonneg _ (by omega)
      · exact nonneg_set demandNonneg _ (by omega)

end Serves

/-! ## Chosen runs -/

/-- Choices that succeed for the quantities of a table, with an open cell or with none. -/
def Opens (rows cols : Nat) (choice : List Int → List Int → Except Fault (Option Cell)) :
    Prop :=
  ∀ supply demand : List Int, supply.length = rows → demand.length = cols →
    ∃ chosen, choice supply demand = .ok chosen ∧
      ∀ cell, chosen = some cell → cell.row ∈ openLines supply ∧ cell.col ∈ openLines demand

/-- Runs that serve the cell that is chosen for the quantities that are left, until none is. -/
inductive Follows (choice : List Int → List Int → Except Fault (Option Cell)) :
    List Int → List Int → List (Allocation Int) → List Int → List Int → Prop
  | stop {supply demand : List Int} :
      choice supply demand = .ok none → Follows choice supply demand [] supply demand
  | serve {supply demand supplyLeft demandLeft : List Int} {cell : Cell}
      {available wanted : Int} {later : List (Allocation Int)} :
      choice supply demand = .ok (some cell) →
      supply[cell.row]? = some available → demand[cell.col]? = some wanted →
      Follows choice (supply.set cell.row (available - min available wanted))
        (demand.set cell.col (wanted - min available wanted)) later supplyLeft demandLeft →
      Follows choice supply demand (⟨cell, min available wanted⟩ :: later) supplyLeft demandLeft

namespace Follows

variable {choice : List Int → List Int → Except Fault (Option Cell)}
  {supply demand supplyLeft demandLeft : List Int} {allocations : List (Allocation Int)}

/-- Choices leave nothing open, so there is only one run from given quantities. -/
theorem unique (follows : Follows choice supply demand allocations supplyLeft demandLeft)
    {others : List (Allocation Int)} {otherSupply otherDemand : List Int}
    (again : Follows choice supply demand others otherSupply otherDemand) :
    allocations = others := by
  induction follows generalizing others with
  | stop none =>
      cases again with
      | stop => rfl
      | serve chosen => cases none.symm.trans chosen
  | serve chosen availableFound wantedFound _ induction =>
      cases again with
      | stop none => cases chosen.symm.trans none
      | serve otherChosen otherAvailable otherWanted later =>
          obtain rfl := Option.some.inj (Except.ok.inj (chosen.symm.trans otherChosen))
          obtain rfl := Option.some.inj (availableFound.symm.trans otherAvailable)
          obtain rfl := Option.some.inj (wantedFound.symm.trans otherWanted)
          rw [induction later]

theorem chooses_none (follows : Follows choice supply demand allocations supplyLeft demandLeft) :
    choice supplyLeft demandLeft = .ok none := by
  induction follows with
  | stop none => exact none
  | serve _ _ _ _ induction => exact induction

/-- A run keeps the lines of its table. -/
theorem length_eq (follows : Follows choice supply demand allocations supplyLeft demandLeft) :
    supplyLeft.length = supply.length ∧ demandLeft.length = demand.length := by
  induction follows with
  | stop => exact ⟨rfl, rfl⟩
  | serve _ _ _ _ induction => simpa only [List.length_set] using induction

/-- Where only open cells are chosen, only open cells are served. -/
theorem serves (opens : Opens supply.length demand.length choice)
    (follows : Follows choice supply demand allocations supplyLeft demandLeft) :
    Serves supply demand allocations supplyLeft demandLeft := by
  induction follows with
  | stop => exact .stop _ _
  | serve chosen availableFound wantedFound _ induction =>
      obtain ⟨_, result, listed⟩ := opens _ _ rfl rfl
      obtain rfl := Except.ok.inj (chosen.symm.trans result)
      obtain ⟨rowOpen, colOpen⟩ := listed _ rfl
      obtain ⟨available, found, availableSome⟩ := mem_openLines_iff.mp rowOpen
      obtain rfl := Option.some.inj (availableFound.symm.trans found)
      obtain ⟨wanted, found, wantedSome⟩ := mem_openLines_iff.mp colOpen
      obtain rfl := Option.some.inj (wantedFound.symm.trans found)
      refine .serve availableFound wantedFound availableSome wantedSome (induction ?_)
      rw [List.length_set, List.length_set]
      exact opens

end Follows

/-! ## Totals -/

theorem sum_range_getD (values : List Int) :
    ∑ index ∈ Finset.range values.length, values[index]?.getD 0 = values.sum := by
  induction values with
  | nil => rfl
  | cons value values induction =>
      rw [List.length_cons, Finset.sum_range_succ', List.sum_cons, ← induction, add_comm]
      simp

namespace Ships

variable {supply demand : List Int} {allocations : List (Allocation Int)}

theorem part_nonneg (ships : Ships supply demand allocations) (cell : Cell) :
    ∀ amount ∈ allocations.map fun allocation =>
      if allocation.cell = cell then allocation.amount else 0, 0 ≤ amount := by
  intro amount member
  obtain ⟨allocation, listed, rfl⟩ := List.mem_map.mp member
  have positive := ships.positive allocation listed
  split
  next => exact positive.le
  next => exact le_refl 0

theorem shipped_nonneg (ships : Ships supply demand allocations) (cell : Cell) :
    0 ≤ shipped allocations cell :=
  List.sum_nonneg (ships.part_nonneg cell)

theorem le_shipped (ships : Ships supply demand allocations) {allocation : Allocation Int}
    (member : allocation ∈ allocations) :
    allocation.amount ≤ shipped allocations allocation.cell :=
  List.single_le_sum (ships.part_nonneg allocation.cell) _
    (List.mem_map.mpr ⟨allocation, member, if_pos rfl⟩)

/-- What is shipped in total is the smaller of the two totals. -/
theorem tableTotal_eq (ships : Ships supply demand allocations) :
    tableTotal supply.length demand.length (shipped allocations) =
      min supply.sum demand.sum := by
  let total := lineTotal supply.length demand.length (shipped allocations)
  have byRows : ∑ row ∈ Finset.range supply.length, total (.row row) =
      tableTotal supply.length demand.length (shipped allocations) := rfl
  have byCols : ∑ col ∈ Finset.range demand.length, total (.col col) =
      tableTotal supply.length demand.length (shipped allocations) :=
    (tableTotal_eq_sum_colTotal (shipped allocations)).symm
  have supplied : ∑ row ∈ Finset.range supply.length, lineQuantity supply demand (.row row) =
      supply.sum := sum_range_getD supply
  have demanded : ∑ col ∈ Finset.range demand.length, lineQuantity supply demand (.col col) =
      demand.sum := sum_range_getD demand
  have belowSupply : tableTotal supply.length demand.length (shipped allocations) ≤
      supply.sum := by
    rw [← byRows, ← supplied]
    exact Finset.sum_le_sum fun row _ => ships.within (.row row)
  have belowDemand : tableTotal supply.length demand.length (shipped allocations) ≤
      demand.sum := by
    rw [← byCols, ← demanded]
    exact Finset.sum_le_sum fun col _ => ships.within (.col col)
  -- The side that is used up attains its bound, and the other bound is no smaller.
  rcases ships.exhausts with rows | cols
  · have all : tableTotal supply.length demand.length (shipped allocations) = supply.sum := by
      rw [← byRows, ← supplied]
      exact Finset.sum_congr rfl fun row _ => rows row
    omega
  · have all : tableTotal supply.length demand.length (shipped allocations) = demand.sum := by
      rw [← byCols, ← demanded]
      exact Finset.sum_congr rfl fun col _ => cols col
    omega

/-- Where supply and demand agree the plan meets every quantity. -/
theorem meets (ships : Ships supply demand allocations)
    (balanced : supply.sum = demand.sum) {line : Line}
    (inTable : line.InTable supply.length demand.length) :
    lineTotal supply.length demand.length (shipped allocations) line =
      lineQuantity supply demand line := by
  have whole := ships.tableTotal_eq
  rw [← balanced, min_self] at whole
  cases line with
  | row row =>
      have each := (Finset.sum_eq_sum_iff_of_le fun row _ => ships.within (.row row)).mp
        (whole.trans (sum_range_getD supply).symm)
      exact each row (Finset.mem_range.mpr inTable)
  | col col =>
      rw [tableTotal_eq_sum_colTotal, balanced] at whole
      have each := (Finset.sum_eq_sum_iff_of_le fun col _ => ships.within (.col col)).mp
        (whole.trans (sum_range_getD demand).symm)
      exact each col (Finset.mem_range.mpr inTable)

/-- The amounts of the allocations add up to what is shipped in total. -/
theorem sum_amount (ships : Ships supply demand allocations) :
    (allocations.map (·.amount)).sum = min supply.sum demand.sum := by
  have weighted := sum_weighted (fun _ => 1) ships.inTable
  simp only [one_mul] at weighted
  exact weighted.trans ships.tableTotal_eq

end Ships

end OptimalPlans.Transport
