import OptimalPlans.Proofs.Transport.RuleEmbedding
import OptimalPlans.Proofs.Transport.Serving
import OptimalPlans.Proofs.Transport.SpanningBasis
import OptimalPlans.Transport.Solution

/-!
# The rules serve cells

The three rules for a first plan differ in the cell that they serve next: the corner that
is left, the cheapest open cell, or the cheapest cell of the line with the largest penalty.
On quantities that are integers each of them is a run that serves open cells.  The walk
from the corner and the penalty rule go on until one side is used up, and so does the
least-cost rule where every cost is bounded.
-/

namespace OptimalPlans.Transport

open Scalar (integer_embedding)

/-- Allocations of integers, read as numbers. -/
abbrev readAllocations (allocations : List (Allocation Int)) : List (Allocation Number) :=
  allocations.map (Allocation.map Number.integer)

/-- Costs of which any two have a difference. -/
def Table.Comparable (rows cols : Nat) (cost : Table Number) : Prop :=
  ∀ cell other : Cell, cell.InTable rows cols → other.InTable rows cols →
    ∃ difference, Scalar.sub (cost.price cell) (cost.price other) = .ok difference

/-- Serves a cell and goes on with what is left. -/
def serveThen (proceed : List Number → List Number → Except Fault (List (Allocation Number)))
    (cell : Cell) (supply demand : List Number) : Except Fault (List (Allocation Number)) := do
  let available ← entryAt supply cell.row
  let wanted ← entryAt demand cell.col
  let amount ← Scalar.smaller available wanted
  let supply ← takeAt supply cell.row amount
  let demand ← takeAt demand cell.col amount
  let later ← proceed supply demand
  return ⟨cell, amount⟩ :: later

theorem serve_eq_ok {supply demand : List Int} {cell : Cell} {available wanted : Int}
    {proceed : List Number → List Number → Except Fault (List (Allocation Number))}
    {later : List (Allocation Int)} (availableFound : supply[cell.row]? = some available)
    (wantedFound : demand[cell.col]? = some wanted)
    (served : proceed
      ((supply.set cell.row (available - min available wanted)).map Number.integer)
      ((demand.set cell.col (wanted - min available wanted)).map Number.integer) =
        .ok (readAllocations later)) :
    serveThen proceed cell (supply.map Number.integer) (demand.map Number.integer) =
      .ok (readAllocations (⟨cell, min available wanted⟩ :: later)) := by
  have availableRead : entryAt (supply.map Number.integer) cell.row =
      .ok (.integer available) := by
    simp [entryAt, availableFound]
  have wantedRead : entryAt (demand.map Number.integer) cell.col = .ok (.integer wanted) := by
    simp [entryAt, wantedFound]
  have amount : Scalar.smaller (Number.integer available) (Number.integer wanted) =
      .ok (.integer (min available wanted)) := by
    rw [integer_embedding.smaller, Scalar.smaller_int, map_ok]
  rw [serveThen, availableRead, ok_bind, wantedRead, ok_bind, amount, ok_bind,
    takeAt_map integer_embedding, takeAt_eq_ok availableFound, map_ok, ok_bind,
    takeAt_map integer_embedding, takeAt_eq_ok wantedFound, map_ok, ok_bind, served, ok_bind]
  rfl

/-- A rule that stops where nothing is chosen, and else serves the cell that is chosen and
goes on. -/
structure Repeats (choice : List Int → List Int → Except Fault (Option Cell))
    (run : Nat → List Number → List Number → Except Fault (List (Allocation Number))) :
    Prop where
  spent : ∀ supply demand, run 0 supply demand = .ok []
  stop : ∀ {supply demand : List Int} (budget : Nat), choice supply demand = .ok none →
    run (budget + 1) (supply.map Number.integer) (demand.map Number.integer) = .ok []
  serve : ∀ {supply demand : List Int} {cell : Cell} (budget : Nat),
    choice supply demand = .ok (some cell) →
    run (budget + 1) (supply.map Number.integer) (demand.map Number.integer) =
      serveThen (run budget) cell (supply.map Number.integer) (demand.map Number.integer)

/-- With a step for every open line such a rule follows its choices to the end. -/
theorem Repeats.follows {choice : List Int → List Int → Except Fault (Option Cell)}
    {run : Nat → List Number → List Number → Except Fault (List (Allocation Number))}
    (repeats : Repeats choice run) {budget : Nat} {supply demand : List Int}
    (opens : Opens supply.length demand.length choice)
    (enough : (openLines supply).length + (openLines demand).length ≤ budget) :
    ∃ allocations supplyLeft demandLeft,
      run budget (supply.map Number.integer) (demand.map Number.integer) =
        .ok (readAllocations allocations) ∧
      Follows choice supply demand allocations supplyLeft demandLeft := by
  induction budget generalizing supply demand with
  | zero =>
      obtain ⟨chosen, result, listed⟩ := opens supply demand rfl rfl
      have closed : openLines supply = [] := List.length_eq_zero_iff.mp (by omega)
      cases chosen with
      | none => exact ⟨[], supply, demand, repeats.spent _ _, .stop result⟩
      | some cell =>
          have rowOpen := (listed cell rfl).1
          rw [closed] at rowOpen
          cases rowOpen
  | succ budget induction =>
      obtain ⟨chosen, result, listed⟩ := opens supply demand rfl rfl
      cases chosen with
      | none => exact ⟨[], supply, demand, repeats.stop budget result, .stop result⟩
      | some cell =>
          obtain ⟨rowOpen, colOpen⟩ := listed cell rfl
          obtain ⟨available, availableFound, availableSome⟩ := mem_openLines_iff.mp rowOpen
          obtain ⟨wanted, wantedFound, wantedSome⟩ := mem_openLines_iff.mp colOpen
          have fewer := length_openLines_serve availableFound wantedFound availableSome
            wantedSome
          obtain ⟨later, supplyLeft, demandLeft, ran, follows⟩ :=
            @induction (supply.set cell.row (available - min available wanted))
              (demand.set cell.col (wanted - min available wanted))
              (by simpa using opens) (by omega)
          exact ⟨_, supplyLeft, demandLeft,
            (repeats.serve budget result).trans (serve_eq_ok availableFound wantedFound ran),
            follows.serve result availableFound wantedFound⟩

theorem mem_openCells_iff {supply demand : List Int} {cell : Cell} :
    cell ∈ openCells supply demand ↔
      cell.row ∈ openLines supply ∧ cell.col ∈ openLines demand := by
  rw [openCells, List.mem_filter, Cell.mem_all_iff, Bool.and_eq_true, openLines, openLines,
    List.mem_filter, List.mem_filter, List.mem_range, List.mem_range]
  exact and_and_and_comm

/-! ## The walk from the corner -/

section NorthWest

theorem openLines_replicate_zero (count : Nat) :
    openLines (List.replicate count (0 : Int)) = [] := by
  apply List.eq_nil_iff_forall_not_mem.mpr
  intro index member
  obtain ⟨held, found, some⟩ := mem_openLines_iff.mp member
  exact some (List.eq_of_mem_replicate (List.mem_of_getElem? found))

theorem replicate_zero_append (count : Nat) (quantities : List Int) :
    List.replicate count 0 ++ 0 :: quantities =
      List.replicate (count + 1) 0 ++ quantities := by
  rw [List.replicate_succ', List.append_assoc, List.singleton_append]

theorem getElem?_replicate_append (count : Nat) (held : Int) (quantities : List Int) :
    (List.replicate count 0 ++ held :: quantities)[count]? = some held := by
  rw [List.getElem?_append_right (by simp)]
  simp

theorem set_replicate_append (count : Nat) (held value : Int) (quantities : List Int) :
    (List.replicate count 0 ++ held :: quantities).set count value =
      List.replicate count 0 ++ value :: quantities := by
  rw [List.set_append_right _ _ (by simp)]
  simp

/-- Where the walk goes from a cell, given what is left of its two lines. -/
def northWestOn (row col : Nat) (left owed : Number) (supply demand : List Number) :
    Except Fault (List (Allocation Number)) :=
  match Scalar.isZero left, Scalar.isZero owed with
  | true, true => northWestFrom (row + 1) (col + 1) supply demand
  | true, false => northWestFrom (row + 1) col supply (owed :: demand)
  | false, true => northWestFrom row (col + 1) (left :: supply) demand
  | false, false => pure []

theorem northWestFrom_cons (row col : Nat) {available wanted : Int}
    (availableNonneg : 0 ≤ available) (wantedNonneg : 0 ≤ wanted) (supply demand : List Int) :
    northWestFrom row col ((available :: supply).map Number.integer)
        ((wanted :: demand).map Number.integer) = do
      let later ← northWestOn row col (.integer (available - min available wanted))
        (.integer (wanted - min available wanted)) (supply.map Number.integer)
        (demand.map Number.integer)
      return if 0 < min available wanted then
        ⟨⟨row, col⟩, .integer (min available wanted)⟩ :: later else later := by
  have amount : Scalar.smaller (Number.integer available) (Number.integer wanted) =
      .ok (.integer (min available wanted)) := by
    rw [integer_embedding.smaller, Scalar.smaller_int, map_ok]
  have positive : Scalar.isPositive (Number.integer (min available wanted)) =
      .ok (decide (0 < min available wanted)) := rfl
  rw [List.map_cons, List.map_cons, northWestFrom, amount, ok_bind, positive, ok_bind]
  unfold northWestOn
  by_cases ships : 0 < min available wanted
  · have left : Scalar.sub (Number.integer available) (.integer (min available wanted)) =
        .ok (.integer (available - min available wanted)) := rfl
    have owed : Scalar.sub (Number.integer wanted) (.integer (min available wanted)) =
        .ok (.integer (wanted - min available wanted)) := rfl
    simp only [ships, decide_true, if_true, left, owed, ok_bind]
    cases Scalar.isZero (Number.integer (available - min available wanted)) <;>
      cases Scalar.isZero (Number.integer (wanted - min available wanted)) <;> rfl
  · have nothing : min available wanted = 0 := by omega
    simp only [nothing, lt_irrefl, decide_false, Bool.false_eq_true, if_false, sub_zero,
      pure_eq_ok, ok_bind]
    cases Scalar.isZero (Number.integer available) <;>
      cases Scalar.isZero (Number.integer wanted) <;> rfl

/-- The corner of the lines that are open. -/
def cornerChoice (supply demand : List Int) : Except Fault (Option Cell) :=
  match openLines supply, openLines demand with
  | row :: _, col :: _ => .ok (some ⟨row, col⟩)
  | _, _ => .ok none

theorem cornerChoice_eq_some_iff {supply demand : List Int} {cell : Cell} :
    cornerChoice supply demand = .ok (some cell) ↔
      (openLines supply).head? = some cell.row ∧ (openLines demand).head? = some cell.col := by
  obtain ⟨row, col⟩ := cell
  rw [cornerChoice]
  cases openLines supply <;> cases openLines demand <;> simp

theorem closed_of_cornerChoice {supply demand : List Int}
    (none : cornerChoice supply demand = .ok none) : Closed supply demand := by
  rw [cornerChoice] at none
  cases rowsOpen : openLines supply with
  | nil => exact .inl rowsOpen
  | cons row rows =>
      cases colsOpen : openLines demand with
      | nil => exact .inr colsOpen
      | cons col cols => simp [rowsOpen, colsOpen] at none

theorem cornerChoice_opens (rows cols : Nat) : Opens rows cols cornerChoice := by
  intro supply demand _ _
  rw [cornerChoice]
  cases rowsOpen : openLines supply with
  | nil => exact ⟨none, rfl, nofun⟩
  | cons row laterRows =>
      cases colsOpen : openLines demand with
      | nil => exact ⟨none, rfl, nofun⟩
      | cons col laterCols =>
          refine ⟨some ⟨row, col⟩, rfl, fun cell chosen => ?_⟩
          obtain rfl := Option.some.inj chosen
          exact ⟨List.mem_cons_self, List.mem_cons_self⟩

/-- Behind lines that are used up, the first line with a quantity is the first open one. -/
theorem head?_openLines_replicate_append (count : Nat) {held : Int} (some : held ≠ 0)
    (quantities : List Int) :
    (openLines (List.replicate count 0 ++ held :: quantities)).head? = .some count := by
  have opened : isOpen (List.replicate count 0 ++ held :: quantities) count = true :=
    isOpen_iff.mpr ⟨held, getElem?_replicate_append count held quantities, some⟩
  have before : (List.range count).filter
      (isOpen (List.replicate count 0 ++ held :: quantities)) = [] := by
    apply List.filter_eq_nil_iff.mpr
    intro index member
    have bound : index < count := List.mem_range.mp member
    have empty : (List.replicate count 0 ++ held :: quantities)[index]? = .some 0 := by
      rw [List.getElem?_append_left (by simpa using bound)]
      simp [bound]
    simp [isOpen, empty]
  have lines : openLines (List.replicate count 0 ++ held :: quantities) =
      (List.range count ++ count :: (List.range quantities.length).map (count + 1 + ·)).filter
        (isOpen (List.replicate count 0 ++ held :: quantities)) := by
    have ranged : (List.replicate count 0 ++ held :: quantities).length =
        count + 1 + quantities.length := by
      simp
      omega
    rw [openLines, ranged, List.range_add, List.range_succ, List.append_assoc,
      List.singleton_append]
  rw [lines, List.filter_append, before, List.nil_append, List.filter_cons_of_pos opened]
  rfl

/-- The walk serves the corner of the open lines, until all rows or all columns are used up. -/
theorem northWestFrom_follows (row col : Nat) (supply demand : List Int)
    (supplyNonneg : ∀ held ∈ supply, 0 ≤ held) (demandNonneg : ∀ held ∈ demand, 0 ≤ held) :
    ∃ allocations supplyLeft demandLeft,
      northWestFrom row col (supply.map Number.integer) (demand.map Number.integer) =
        .ok (readAllocations allocations) ∧
      Follows cornerChoice (List.replicate row 0 ++ supply) (List.replicate col 0 ++ demand)
        allocations supplyLeft demandLeft := by
  -- Every step leaves a row, a column or both behind, as zeros before what is still ahead.
  induction size : supply.length + demand.length using Nat.strong_induction_on
    generalizing row col supply demand with
  | _ size induction =>
      rcases supply with _ | ⟨available, supply⟩
      · refine ⟨[], _, _, by simp [northWestFrom], .stop ?_⟩
        rw [cornerChoice, List.append_nil, openLines_replicate_zero]
      rcases demand with _ | ⟨wanted, demand⟩
      · refine ⟨[], _, _, by simp [northWestFrom], .stop ?_⟩
        rw [cornerChoice, List.append_nil, openLines_replicate_zero]
        cases openLines (List.replicate row 0 ++ available :: supply) <;> rfl
      obtain ⟨availableNonneg, laterSupply⟩ := List.forall_mem_cons.mp supplyNonneg
      obtain ⟨wantedNonneg, laterDemand⟩ := List.forall_mem_cons.mp demandNonneg
      simp only [List.length_cons] at size
      have goesOn : ∃ later supplyLeft demandLeft,
          northWestOn row col (.integer (available - min available wanted))
            (.integer (wanted - min available wanted)) (supply.map Number.integer)
            (demand.map Number.integer) = .ok (readAllocations later) ∧
          Follows cornerChoice
            (List.replicate row 0 ++ (available - min available wanted) :: supply)
            (List.replicate col 0 ++ (wanted - min available wanted) :: demand) later
            supplyLeft demandLeft := by
        unfold northWestOn
        rw [integer_embedding.isZero, integer_embedding.isZero, Scalar.isZero_int,
          Scalar.isZero_int]
        by_cases rowDone : available - min available wanted = 0
        · by_cases colDone : wanted - min available wanted = 0
          · rw [rowDone, colDone, replicate_zero_append, replicate_zero_append]
            exact induction _ (by omega) (row + 1) (col + 1) supply demand laterSupply
              laterDemand rfl
          · have owed : ∀ held ∈ (wanted - min available wanted) :: demand, 0 ≤ held :=
              List.forall_mem_cons.mpr ⟨by omega, laterDemand⟩
            rw [rowDone, replicate_zero_append]
            simp only [decide_true, colDone, decide_false]
            exact induction _ (by simp; omega) (row + 1) col supply _ laterSupply owed rfl
        · have colDone : wanted - min available wanted = 0 := by omega
          have left : ∀ held ∈ (available - min available wanted) :: supply, 0 ≤ held :=
            List.forall_mem_cons.mpr ⟨by omega, laterSupply⟩
          rw [colDone, replicate_zero_append]
          simp only [decide_true, rowDone, decide_false]
          exact induction _ (by simp; omega) row (col + 1) _ demand left laterDemand rfl
      obtain ⟨later, supplyLeft, demandLeft, result, follows⟩ := goesOn
      rw [northWestFrom_cons row col availableNonneg wantedNonneg, result, ok_bind]
      by_cases ships : 0 < min available wanted
      · refine ⟨⟨⟨row, col⟩, min available wanted⟩ :: later, supplyLeft, demandLeft,
          by simp [ships, readAllocations, Allocation.map], ?_⟩
        apply Follows.serve (cornerChoice_eq_some_iff.mpr
            ⟨head?_openLines_replicate_append row (by omega) supply,
              head?_openLines_replicate_append col (by omega) demand⟩)
          (getElem?_replicate_append row available supply)
          (getElem?_replicate_append col wanted demand)
        rw [set_replicate_append, set_replicate_append]
        exact follows
      · have nothing : min available wanted = 0 := by omega
        rw [nothing, sub_zero, sub_zero] at follows
        exact ⟨later, supplyLeft, demandLeft, by simp [ships], follows⟩

end NorthWest

/-! ## The least-cost rule -/

section LeastCost

variable {rows cols : Nat} {cost : Table Number}

/-- The cheapest of some cells is one of them; there is none only where no cost is
bounded. -/
theorem cheapest_eq_ok (shaped : cost.Shaped rows cols) {cells : List Cell}
    (inTable : ∀ cell ∈ cells, cell.InTable rows cols) :
    ∃ best, cheapest cost cells = .ok best ∧ (∀ cell, best = some cell → cell ∈ cells) ∧
      (best = none → ∀ cell ∈ cells, (cost.price cell).isBounded = false) := by
  let known : List Cell → Option (Cell × Number) → Prop := fun seen best =>
    (∀ held, best = some held → held.1 ∈ seen) ∧
      (best = none → ∀ cell ∈ seen, (cost.price cell).isBounded = false)
  have continues : ∀ seen cell best, known seen best → cell ∈ cells →
      ∃ next, cheaper cost best cell = .ok next ∧ known (seen ++ [cell]) next := by
    intro seen cell best holds member
    have found : cost.entry cell = .ok (cost.price cell) :=
      shaped.entry_eq_ok (inTable cell member)
    have taken : known (seen ++ [cell]) (some (cell, cost.price cell)) := by
      refine ⟨fun held same => ?_, by simp⟩
      obtain rfl := Option.some.inj same
      simp
    cases best with
    | none =>
        cases bounded : (cost.price cell).isBounded with
        | true => exact ⟨_, by simp [cheaper, found, Scalar.bounded, bounded], taken⟩
        | false =>
            refine ⟨none, by simp [cheaper, found, Scalar.bounded, bounded], by simp, ?_⟩
            intro _ other otherMember
            rcases List.mem_append.mp otherMember with old | new
            · exact holds.2 rfl other old
            · rw [List.mem_singleton.mp new]
              exact bounded
    | some held =>
        cases less : (cost.price cell).less held.2 with
        | true => exact ⟨_, by simp [cheaper, found, Scalar.less, less], taken⟩
        | false =>
            refine ⟨some held, by simp [cheaper, found, Scalar.less, less], ?_, by simp⟩
            intro other same
            exact List.mem_append_left _ (holds.1 other same)
  have begins : known [] none := ⟨by simp, by simp⟩
  obtain ⟨best, result, member, unbounded⟩ := foldlM_invariant known begins continues
  refine ⟨best.map (·.1), by simp [cheapest, result], fun cell chosen => ?_, fun none => ?_⟩
  · obtain ⟨held, found, rfl⟩ := Option.map_eq_some_iff.mp chosen
    exact member held found
  · exact unbounded (Option.map_eq_none_iff.mp none)

theorem lt_length_of_mem_openLines {quantities : List Int} {index : Nat}
    (member : index ∈ openLines quantities) : index < quantities.length :=
  List.mem_range.mp (List.mem_of_mem_filter member)

theorem inTable_of_mem_openCells {supply demand : List Int} :
    ∀ cell ∈ openCells supply demand, cell.InTable supply.length demand.length := by
  intro cell member
  obtain ⟨rowOpen, colOpen⟩ := mem_openCells_iff.mp member
  exact ⟨lt_length_of_mem_openLines rowOpen, lt_length_of_mem_openLines colOpen⟩

/-- The cell that the least-cost rule serves next. -/
def leastCostChoice (cost : Table Number) (supply demand : List Int) :
    Except Fault (Option Cell) :=
  cheapest cost (openCells supply demand)

theorem leastCost_repeats (cost : Table Number) :
    Repeats (leastCostChoice cost) (leastCostWithin cost) where
  spent _ _ := rfl
  stop budget none := by
    rw [leastCostWithin, openCells_map integer_embedding]
    exact congrArg (· >>= _) none
  serve budget chosen := by
    rw [leastCostWithin, openCells_map integer_embedding]
    exact congrArg (· >>= _) chosen

theorem leastCostChoice_opens (shaped : cost.Shaped rows cols) :
    Opens rows cols (leastCostChoice cost) := by
  rintro supply demand rfl rfl
  obtain ⟨best, result, listed, _⟩ := cheapest_eq_ok shaped inTable_of_mem_openCells
  exact ⟨best, result, fun cell chosen => mem_openCells_iff.mp (listed cell chosen)⟩

/-- Bounded costs leave no open cell without a choice. -/
theorem closed_of_leastCostChoice {supply demand : List Int}
    (shaped : cost.Shaped supply.length demand.length)
    (bounded : ∀ cell : Cell, cell.InTable supply.length demand.length →
      (cost.price cell).isBounded = true)
    (none : leastCostChoice cost supply demand = .ok none) : Closed supply demand := by
  obtain ⟨best, result, _, unbounded⟩ := cheapest_eq_ok shaped inTable_of_mem_openCells
  obtain rfl := Except.ok.inj (result.symm.trans none)
  by_contra opened
  obtain ⟨rowsOpen, colsOpen⟩ := not_or.mp opened
  obtain ⟨row, rowOpen⟩ := List.exists_mem_of_ne_nil _ rowsOpen
  obtain ⟨col, colOpen⟩ := List.exists_mem_of_ne_nil _ colsOpen
  have member : (⟨row, col⟩ : Cell) ∈ openCells supply demand :=
    mem_openCells_iff.mpr ⟨rowOpen, colOpen⟩
  have finite := bounded _ (inTable_of_mem_openCells _ member)
  rw [unbounded rfl _ member] at finite
  cases finite

end LeastCost

/-! ## The penalty rule -/

section Penalty

variable {rows cols : Nat} {cost : Table Number}

theorem penalty_eq_ok {costs : List Number} (some : costs ≠ [])
    (differ : ∀ unit ∈ costs, ∀ other ∈ costs,
      ∃ difference, Scalar.sub unit other = .ok difference) :
    ∃ value, penalty costs = .ok value := by
  have decides : ∀ left right : Number, Scalar.less left right = .ok (left.less right) :=
    fun _ _ => rfl
  obtain ⟨sorted, result, permutation⟩ := Scalar.sortBy_eq_ok decides costs
  rw [penalty, result, ok_bind]
  rcases sorted with _ | ⟨first, _ | ⟨second, rest⟩⟩
  · exact absurd permutation.symm.eq_nil some
  · exact ⟨first, rfl⟩
  · apply differ
    · exact permutation.subset (by simp)
    · exact permutation.subset (by simp)

variable {price : Nat → Nat → Except Fault Number} {worth : Nat → Nat → Number}
  {lines crossing : List Nat}

theorem penalties_eq_ok (some : crossing ≠ [])
    (entries : ∀ line ∈ lines, ∀ other ∈ crossing, price line other = .ok (worth line other))
    (differ : ∀ line ∈ lines, ∀ left ∈ crossing, ∀ right ∈ crossing,
      ∃ difference, Scalar.sub (worth line left) (worth line right) = .ok difference) :
    ∃ values, penalties price lines crossing = .ok values ∧
      values.length = lines.length ∧ ∀ entry ∈ values, entry.1 ∈ lines := by
  have each : ∀ line ∈ lines, ∃ entry : Nat × Number, (do
      let costs ← crossing.mapM (price line)
      return (line, ← penalty costs)) = (.ok entry : Except Fault _) ∧ entry.1 = line := by
    intro line member
    have read : crossing.mapM (price line) = .ok (crossing.map (worth line)) :=
      mapM_eq_ok (entries line member)
    have known : ∀ unit ∈ crossing.map (worth line), ∀ other ∈ crossing.map (worth line),
        ∃ difference, Scalar.sub unit other = .ok difference := by
      intro unit unitMember other otherMember
      obtain ⟨left, leftMember, rfl⟩ := List.mem_map.mp unitMember
      obtain ⟨right, rightMember, rfl⟩ := List.mem_map.mp otherMember
      exact differ line member left leftMember right rightMember
    obtain ⟨value, result⟩ := penalty_eq_ok (by simpa using some) known
    exact ⟨(line, value), by simp [read, result], rfl⟩
  obtain ⟨values, result, length, all⟩ := mapM_succeeds each
  refine ⟨values, result, length, fun entry member => ?_⟩
  obtain ⟨line, lineMember, same⟩ := all entry member
  exact same ▸ lineMember

theorem largestPenalty_eq_ok {values : List (Nat × Number)} (some : values ≠ []) :
    ∃ entry ∈ values, largestPenalty values = .ok entry := by
  cases values with
  | nil => exact absurd rfl some
  | cons first rest => exact Scalar.pick_eq_ok fun left _ right _ => ⟨_, rfl⟩

theorem cheapestCrossing_eq_ok {price : Nat → Except Fault Number} {worth : Nat → Number}
    {first : Nat} {rest : List Nat}
    (entries : ∀ line ∈ first :: rest, price line = .ok (worth line)) :
    ∃ line ∈ first :: rest, cheapestCrossing price first rest = .ok line := by
  refine Scalar.pick_eq_ok fun left leftMember right rightMember => ?_
  simp only [entries left leftMember, entries right rightMember, ok_bind]
  exact ⟨_, rfl⟩

/-- The line with the largest penalty is one of those that are compared. -/
theorem largest_of_penalties_eq_ok (linesSome : lines ≠ []) (crossingSome : crossing ≠ [])
    (entries : ∀ line ∈ lines, ∀ other ∈ crossing, price line other = .ok (worth line other))
    (differ : ∀ line ∈ lines, ∀ left ∈ crossing, ∀ right ∈ crossing,
      ∃ difference, Scalar.sub (worth line left) (worth line right) = .ok difference) :
    ∃ values entry, penalties price lines crossing = .ok values ∧
      largestPenalty values = .ok entry ∧ entry.1 ∈ lines := by
  obtain ⟨values, result, length, listed⟩ := penalties_eq_ok crossingSome entries differ
  have some : values ≠ [] := by
    rintro rfl
    exact linesSome (List.length_eq_zero_iff.mp length.symm)
  obtain ⟨entry, member, largest⟩ := largestPenalty_eq_ok some
  exact ⟨values, entry, result, largest, listed entry member⟩

/-- The row and the column with the largest penalties. -/
theorem largest_penalties_eq_ok (shaped : cost.Shaped rows cols)
    (comparable : cost.Comparable rows cols) {firstRow firstCol : Nat}
    {laterRows laterCols : List Nat} (rowsInTable : ∀ row ∈ firstRow :: laterRows, row < rows)
    (colsInTable : ∀ col ∈ firstCol :: laterCols, col < cols) :
    ∃ rowValues row colValues col,
      penalties (fun row col => cost.entry ⟨row, col⟩) (firstRow :: laterRows)
        (firstCol :: laterCols) = .ok rowValues ∧
      penalties (fun col row => cost.entry ⟨row, col⟩) (firstCol :: laterCols)
        (firstRow :: laterRows) = .ok colValues ∧
      largestPenalty rowValues = .ok row ∧ largestPenalty colValues = .ok col ∧
      row.1 ∈ firstRow :: laterRows ∧ col.1 ∈ firstCol :: laterCols := by
  have entries : ∀ row ∈ firstRow :: laterRows, ∀ col ∈ firstCol :: laterCols,
      cost.entry ⟨row, col⟩ = .ok (cost.price ⟨row, col⟩) := fun row rowMember col colMember =>
    shaped.entry_eq_ok ⟨rowsInTable row rowMember, colsInTable col colMember⟩
  obtain ⟨rowValues, row, rowPenalties, rowLargest, rowMember⟩ :=
    largest_of_penalties_eq_ok (List.cons_ne_nil _ _) (List.cons_ne_nil _ _) entries
      fun row rowMember left leftMember right rightMember =>
        comparable ⟨row, left⟩ ⟨row, right⟩
          ⟨rowsInTable row rowMember, colsInTable left leftMember⟩
          ⟨rowsInTable row rowMember, colsInTable right rightMember⟩
  obtain ⟨colValues, col, colPenalties, colLargest, colMember⟩ :=
    largest_of_penalties_eq_ok (List.cons_ne_nil _ _) (List.cons_ne_nil _ _)
      (fun col colMember row rowMember => entries row rowMember col colMember)
      fun col colMember left leftMember right rightMember =>
        comparable ⟨left, col⟩ ⟨right, col⟩
          ⟨rowsInTable left leftMember, colsInTable col colMember⟩
          ⟨rowsInTable right rightMember, colsInTable col colMember⟩
  exact ⟨rowValues, row, colValues, col, rowPenalties, colPenalties, rowLargest, colLargest,
    rowMember, colMember⟩

/-- The rule chooses a cell of an open row and an open column. -/
theorem penaltyCell_eq_ok (shaped : cost.Shaped rows cols)
    (comparable : cost.Comparable rows cols) {firstRow firstCol : Nat}
    {laterRows laterCols : List Nat} (rowsInTable : ∀ row ∈ firstRow :: laterRows, row < rows)
    (colsInTable : ∀ col ∈ firstCol :: laterCols, col < cols) :
    ∃ cell, penaltyCell cost firstRow laterRows firstCol laterCols = .ok cell ∧
      cell.row ∈ firstRow :: laterRows ∧ cell.col ∈ firstCol :: laterCols := by
  have entries : ∀ row ∈ firstRow :: laterRows, ∀ col ∈ firstCol :: laterCols,
      cost.entry ⟨row, col⟩ = .ok (cost.price ⟨row, col⟩) := fun row rowMember col colMember =>
    shaped.entry_eq_ok ⟨rowsInTable row rowMember, colsInTable col colMember⟩
  obtain ⟨rowValues, row, colValues, col, rowPenalties, colPenalties, rowLargest, colLargest,
    rowMember, colMember⟩ := largest_penalties_eq_ok shaped comparable rowsInTable colsInTable
  have compared : Scalar.greaterEq row.2 col.2 = .ok (col.2.lessEq row.2) := rfl
  unfold penaltyCell
  simp only [rowPenalties, colPenalties, rowLargest, colLargest, compared, ok_bind]
  split
  next =>
      obtain ⟨chosen, member, result⟩ := cheapestCrossing_eq_ok fun other otherMember =>
        entries row.1 rowMember other otherMember
      exact ⟨⟨row.1, chosen⟩, by simp [result], rowMember, member⟩
  next =>
      obtain ⟨chosen, member, result⟩ := cheapestCrossing_eq_ok fun other otherMember =>
        entries other otherMember col.1 colMember
      exact ⟨⟨chosen, col.1⟩, by simp [result], member, colMember⟩

/-- The cell that the penalty rule serves next. -/
def penaltyChoice (cost : Table Number) (supply demand : List Int) :
    Except Fault (Option Cell) :=
  match openLines supply, openLines demand with
  | firstRow :: laterRows, firstCol :: laterCols =>
      (penaltyCell cost firstRow laterRows firstCol laterCols).map some
  | _, _ => .ok none

/-- The rule only stops where no row or no column is open. -/
theorem closed_of_penaltyChoice {supply demand : List Int}
    (none : penaltyChoice cost supply demand = .ok none) : Closed supply demand := by
  rw [penaltyChoice] at none
  split at none
  next firstRow laterRows firstCol laterCols _ _ =>
      cases result : penaltyCell cost firstRow laterRows firstCol laterCols <;>
        rw [result] at none <;> cases none
  next apart =>
      cases rowsOpen : openLines supply with
      | nil => exact .inl rowsOpen
      | cons firstRow laterRows =>
          cases colsOpen : openLines demand with
          | nil => exact .inr colsOpen
          | cons firstCol laterCols =>
              exact absurd colsOpen (apart _ _ _ _ rowsOpen)

theorem penaltyRule_repeats (cost : Table Number) :
    Repeats (penaltyChoice cost) (penaltyRuleWithin cost) where
  spent _ _ := rfl
  stop := by
    intro supply demand budget none
    rw [penaltyRuleWithin, openLines_map integer_embedding, openLines_map integer_embedding]
    rcases closed_of_penaltyChoice none with closed | closed
    · simp only [closed]
      rfl
    · cases openLines supply <;> simp only [closed] <;> rfl
  serve := by
    intro supply demand cell budget chosen
    rw [penaltyRuleWithin, openLines_map integer_embedding, openLines_map integer_embedding]
    rw [penaltyChoice] at chosen
    cases rowsOpen : openLines supply with
    | nil =>
        rw [rowsOpen] at chosen
        cases chosen
    | cons firstRow laterRows =>
        rw [rowsOpen] at chosen
        cases colsOpen : openLines demand with
        | nil =>
            rw [colsOpen] at chosen
            cases chosen
        | cons firstCol laterCols =>
            rw [colsOpen] at chosen
            cases result : penaltyCell cost firstRow laterRows firstCol laterCols with
            | error fault => cases (congrArg (Except.map some) result).symm.trans chosen
            | ok best =>
                have same := (congrArg (Except.map some) result).symm.trans chosen
                obtain rfl := Option.some.inj (Except.ok.inj same)
                exact congrArg (· >>= _) result

theorem penaltyChoice_opens (shaped : cost.Shaped rows cols)
    (comparable : cost.Comparable rows cols) : Opens rows cols (penaltyChoice cost) := by
  rintro supply demand rfl rfl
  unfold penaltyChoice
  split
  next firstRow laterRows firstCol laterCols rowsOpen colsOpen =>
      obtain ⟨cell, chosen, rowMember, colMember⟩ := penaltyCell_eq_ok shaped comparable
        (fun row member => lt_length_of_mem_openLines (rowsOpen ▸ member))
        fun col member => lt_length_of_mem_openLines (colsOpen ▸ member)
      refine ⟨some cell, by rw [chosen, map_ok], fun other same => ?_⟩
      obtain rfl := Option.some.inj same
      exact ⟨rowsOpen ▸ rowMember, colsOpen ▸ colMember⟩
  next => exact ⟨none, rfl, nofun⟩

end Penalty

/-! ## All rules -/

/-- The number of open lines is at most the number of lines. -/
theorem length_openLines_le (quantities : List Int) :
    (openLines quantities).length ≤ quantities.length :=
  (List.length_filter_le _ _).trans_eq List.length_range

theorem result_plan (rule : InitialRule) (problem : Problem Number) :
    (rule.plan problem).result = match rule with
      | .northWest => northWest problem
      | .leastCost => leastCost problem
      | .penalty => penaltyRule problem := by
  cases rule with
  | northWest => rfl
  | leastCost => rfl
  | penalty =>
      simp only [InitialRule.plan, notedPenaltyRule]
      cases penaltyRule problem <;> rfl

/-- With a step for every line there is one for every open line. -/
theorem enough_steps (supply demand : List Int) :
    (openLines supply).length + (openLines demand).length ≤ supply.length + demand.length :=
  Nat.add_le_add (length_openLines_le supply) (length_openLines_le demand)

/-- The least-cost rule follows its choices to the end. -/
theorem leastCost_follows {cost : Table Number} {supply demand : List Int}
    (shaped : cost.Shaped supply.length demand.length) :
    ∃ allocations supplyLeft demandLeft,
      leastCost ⟨cost, supply.map .integer, demand.map .integer⟩ =
        .ok (readAllocations allocations) ∧
      Follows (leastCostChoice cost) supply demand allocations supplyLeft demandLeft := by
  unfold leastCost Problem.rows Problem.cols
  simp only [List.length_map]
  exact (leastCost_repeats cost).follows (leastCostChoice_opens shaped)
    (enough_steps supply demand)

/-- The penalty rule follows its choices to the end. -/
theorem penaltyRule_follows {cost : Table Number} {supply demand : List Int}
    (shaped : cost.Shaped supply.length demand.length)
    (comparable : cost.Comparable supply.length demand.length) :
    ∃ allocations supplyLeft demandLeft,
      penaltyRule ⟨cost, supply.map .integer, demand.map .integer⟩ =
        .ok (readAllocations allocations) ∧
      Follows (penaltyChoice cost) supply demand allocations supplyLeft demandLeft := by
  unfold penaltyRule Problem.rows Problem.cols
  simp only [List.length_map]
  exact (penaltyRule_repeats cost).follows (penaltyChoice_opens shaped comparable)
    (enough_steps supply demand)

/-- Every rule is a run over the quantities of its problem. -/
theorem plan_serves (rule : InitialRule) {cost : Table Number} {supply demand : List Int}
    (shaped : cost.Shaped supply.length demand.length)
    (comparable : cost.Comparable supply.length demand.length)
    (supplyNonneg : ∀ held ∈ supply, 0 ≤ held) (demandNonneg : ∀ held ∈ demand, 0 ≤ held) :
    ∃ allocations supplyLeft demandLeft,
      (rule.plan ⟨cost, supply.map .integer, demand.map .integer⟩).result =
        .ok (readAllocations allocations) ∧
      Serves supply demand allocations supplyLeft demandLeft ∧
      ((∀ cell : Cell, cell.InTable supply.length demand.length →
        (cost.price cell).isBounded = true) → Closed supplyLeft demandLeft) := by
  rw [result_plan]
  cases rule with
  | northWest =>
      obtain ⟨allocations, supplyLeft, demandLeft, result, follows⟩ :=
        northWestFrom_follows 0 0 supply demand supplyNonneg demandNonneg
      exact ⟨allocations, supplyLeft, demandLeft, result,
        follows.serves (cornerChoice_opens _ _),
        fun _ => closed_of_cornerChoice follows.chooses_none⟩
  | leastCost =>
      obtain ⟨allocations, supplyLeft, demandLeft, result, follows⟩ := leastCost_follows shaped
      have serves := follows.serves (leastCostChoice_opens shaped)
      refine ⟨allocations, supplyLeft, demandLeft, result, serves, fun bounded => ?_⟩
      have lengths := follows.length_eq
      exact closed_of_leastCostChoice (lengths.1 ▸ lengths.2 ▸ shaped)
        (lengths.1 ▸ lengths.2 ▸ bounded) follows.chooses_none
  | penalty =>
      obtain ⟨allocations, supplyLeft, demandLeft, result, follows⟩ :=
        penaltyRule_follows shaped comparable
      exact ⟨allocations, supplyLeft, demandLeft, result,
        follows.serves (penaltyChoice_opens shaped comparable),
        fun _ => closed_of_penaltyChoice follows.chooses_none⟩

end OptimalPlans.Transport
