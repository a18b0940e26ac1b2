import OptimalPlans.Proofs.Transport.PlanEmbedding
import OptimalPlans.Proofs.Transport.PotentialAdequacy

/-!
# Reduced costs

Once all lines are priced, the reduced cost of a cell is what its cost leaves after both
prices are paid.  The cell that enters has the smallest reduced cost outside the basis,
and none enters when no reduced cost there is negative.
-/

namespace OptimalPlans.Transport

theorem Table.mem_entries_iff {α : Type} {table : Table α} {cell : Cell} {value : α} :
    (cell, value) ∈ table.entries ↔
      ∃ row, table[cell.row]? = some row ∧ row[cell.col]? = some value := by
  obtain ⟨row, col⟩ := cell
  constructor
  · intro member
    obtain ⟨⟨values, index⟩, values_mem, found⟩ := List.mem_flatMap.mp member
    obtain ⟨⟨held, place⟩, held_mem, equality⟩ := List.mem_map.mp found
    obtain ⟨⟨rfl, rfl⟩, rfl⟩ : (index = row ∧ place = col) ∧ held = value := by
      simpa using equality
    exact ⟨values, List.mk_mem_zipIdx_iff_getElem?.mp values_mem,
      List.mk_mem_zipIdx_iff_getElem?.mp held_mem⟩
  · rintro ⟨values, rowFound, colFound⟩
    refine List.mem_flatMap.mpr ⟨(values, row), ?_, ?_⟩
    · exact List.mk_mem_zipIdx_iff_getElem?.mpr rowFound
    · exact List.mem_map.mpr ⟨(value, col),
        List.mk_mem_zipIdx_iff_getElem?.mpr colFound, rfl⟩

theorem Table.entries_mapEntries {α β : Type} (f : α → β) (table : Table α) :
    (table.mapEntries f).entries =
      table.entries.map fun entry => (entry.1, f entry.2) := by
  simp only [Table.entries, Table.mapEntries, List.zipIdx_map, List.flatMap_map,
    List.map_flatMap, List.map_map, Prod.map_fst, Prod.map_snd, id_eq]
  rfl

theorem Table.entry_of_mem_entries {α : Type} {table : Table α} {cell : Cell} {value : α}
    (member : (cell, value) ∈ table.entries) : table.entry cell = .ok value := by
  obtain ⟨row, rowFound, colFound⟩ := Table.mem_entries_iff.mp member
  simp [Table.entry, entryAt, rowFound, colFound]

/-- A table whose entries are computed from the entries of another and their cells. -/
def Table.mapCells {α β : Type} (f : Cell → α → β) (table : Table α) : Table β :=
  table.zipIdx.map fun (values, row) =>
    values.zipIdx.map fun (value, col) => f ⟨row, col⟩ value

theorem Table.entry_mapCells {α β : Type} (f : Cell → α → β) (table : Table α)
    (cell : Cell) : (table.mapCells f).entry cell = (table.entry cell).map (f cell) := by
  unfold Table.entry entryAt Table.mapCells
  rw [List.getElem?_map, List.getElem?_zipIdx]
  cases table[cell.row]? with
  | none => rfl
  | some values =>
      simp only [Option.map_some, ok_bind, List.getElem?_map, List.getElem?_zipIdx, zero_add]
      cases values[cell.col]? <;> rfl

/-- Only the cells of the table matter. -/
theorem Table.mapCells_congr {α β : Type} {rows cols : Nat} {f g : Cell → α → β}
    {table : Table α} (shaped : table.Shaped rows cols)
    (agrees : ∀ cell : Cell, cell.InTable rows cols → f cell = g cell) :
    table.mapCells f = table.mapCells g := by
  refine List.map_congr_left fun ⟨values, row⟩ member => ?_
  obtain ⟨rowBound, rfl⟩ :=
    List.getElem?_eq_some_iff.mp (List.mk_mem_zipIdx_iff_getElem?.mp member)
  refine List.map_congr_left fun ⟨value, col⟩ valueMember => ?_
  obtain ⟨colBound, _⟩ :=
    List.getElem?_eq_some_iff.mp (List.mk_mem_zipIdx_iff_getElem?.mp valueMember)
  rw [shaped.row_length_eq _ (List.getElem_mem rowBound)] at colBound
  exact congrFun (agrees ⟨row, col⟩ ⟨shaped.length_eq ▸ rowBound, colBound⟩) value

/-- What the cost of a cell leaves after the prices of its lines are paid. -/
def reducedPrice (cost : Table Int) (price : Line → Int) (cell : Cell) : Int :=
  cost.price cell - price (.row cell.row) - price (.col cell.col)

/-- The reduced costs of a table of which every line is priced. -/
def reducedTable (cost : Table Int) (price : Line → Int) : Table (Option Int) :=
  cost.zipIdx.map fun (units, row) => units.zipIdx.map fun (unit, col) =>
    some (unit - price (.row row) - price (.col col))

section Table

variable {rows cols : Nat} {cost : Table Int} {price : Line → Int}

theorem mem_entries_reducedTable (shaped : cost.Shaped rows cols) {cell : Cell}
    {value : Option Int} :
    (cell, value) ∈ (reducedTable cost price).entries ↔
      cell.InTable rows cols ∧ value = some (reducedPrice cost price cell) := by
  rw [Table.mem_entries_iff]
  constructor
  · rintro ⟨row, rowFound, colFound⟩
    simp only [reducedTable, List.getElem?_map, Option.map_eq_some_iff,
      List.getElem?_zipIdx] at rowFound
    obtain ⟨_, ⟨units, unitsFound, rfl⟩, rfl⟩ := rowFound
    simp only [List.getElem?_map, Option.map_eq_some_iff, List.getElem?_zipIdx] at colFound
    obtain ⟨_, ⟨unit, unitFound, rfl⟩, rfl⟩ := colFound
    obtain ⟨rowBound, unitsEq⟩ := List.getElem?_eq_some_iff.mp unitsFound
    obtain ⟨colBound, _⟩ := List.getElem?_eq_some_iff.mp unitFound
    have width : units.length = cols :=
      shaped.row_length_eq units (unitsEq ▸ List.getElem_mem rowBound)
    refine ⟨⟨shaped.length_eq ▸ rowBound, width ▸ colBound⟩, ?_⟩
    simp [reducedPrice, Table.price, unitsFound, unitFound]
  · rintro ⟨inTable, rfl⟩
    have rowBound : cell.row < cost.length := shaped.length_eq ▸ inTable.1
    have colBound : cell.col < cost[cell.row].length := by
      rw [shaped.row_length_eq _ (List.getElem_mem rowBound)]
      exact inTable.2
    simp [reducedTable, reducedPrice, Table.price, rowBound, colBound]

theorem shaped_reducedTable (shaped : cost.Shaped rows cols) (price : Line → Int) :
    (reducedTable cost price).Shaped rows cols := by
  refine ⟨by simp [reducedTable, shaped.length_eq], fun row member => ?_⟩
  obtain ⟨⟨units, index⟩, unitsMember, rfl⟩ := List.mem_map.mp member
  rw [List.length_map, List.length_zipIdx]
  exact shaped.row_length_eq units (List.fst_mem_of_mem_zipIdx unitsMember)

/-- A reduced cost is what a cost leaves after both potentials, where these are resolved. -/
theorem reducedCosts_eq_mapCells {potentials : Potentials Int} (shaped : cost.Shaped rows cols)
    (rowsLength : potentials.rows.length = rows) (colsLength : potentials.cols.length = cols) :
    potentials.reducedCosts cost = .ok (cost.mapCells fun cell unit =>
      Option.map₂ (fun u v => unit - u - v) (potentials.at? (.row cell.row))
        (potentials.at? (.col cell.col))) := by
  unfold Potentials.reducedCosts
  refine mapM_eq_ok ?_
  rintro ⟨units, row⟩ member
  obtain ⟨rowBound, rfl⟩ :=
    List.getElem?_eq_some_iff.mp (List.mk_mem_zipIdx_iff_getElem?.mp member)
  have rowInTable : row < potentials.rows.length := by
    rw [rowsLength, ← shaped.length_eq]
    exact rowBound
  dsimp only
  rw [Potentials.entryAt_rows rowInTable, ok_bind]
  refine mapM_eq_ok ?_
  rintro ⟨unit, col⟩ unitMember
  obtain ⟨colBound, _⟩ :=
    List.getElem?_eq_some_iff.mp (List.mk_mem_zipIdx_iff_getElem?.mp unitMember)
  have colInTable : col < potentials.cols.length := by
    rw [colsLength, ← shaped.row_length_eq _ (List.getElem_mem rowBound)]
    exact colBound
  unfold Potentials.reducedCost
  rw [Potentials.entryAt_cols colInTable]
  cases potentials.at? (.row row) with
  | none => rfl
  | some u => cases potentials.at? (.col col) <;> rfl

theorem reducedCosts_eq_ok (shaped : cost.Shaped rows cols) :
    (Potentials.priced rows cols price).reducedCosts cost =
      .ok (reducedTable cost price) := by
  have listed : reducedTable cost price = cost.mapCells fun cell unit =>
      some (unit - price (.row cell.row) - price (.col cell.col)) := rfl
  rw [reducedCosts_eq_mapCells shaped (by simp [Potentials.priced])
    (by simp [Potentials.priced]), listed]
  refine congrArg Except.ok (Table.mapCells_congr shaped fun cell inTable => ?_)
  have rowInTable : (Line.row cell.row).InTable rows cols := inTable.1
  have colInTable : (Line.col cell.col).InTable rows cols := inTable.2
  rw [Potentials.at?_priced rowInTable, Potentials.at?_priced colInTable]
  rfl

/-- Only the cells outside the basis can be cheaper than their lines are worth. -/
theorem reducedPrice_of_mem {basis : List Cell} (prices : Prices cost basis price)
    {cell : Cell} (member : cell ∈ basis) : reducedPrice cost price cell = 0 := by
  rw [reducedPrice, prices cell member]
  ring

/-- Around a loop of basic cells the costs add up to the reduced cost of the entering
cell. -/
theorem ClosesLoop.signedSum_cost {basis cells : List Cell} {entering : Cell}
    (closes : ClosesLoop basis entering cells) (prices : Prices cost basis price) :
    signedSum (loopAlong entering cells) cost.price = reducedPrice cost price entering := by
  have parts : cost.price = fun cell => reducedPrice cost price cell +
      (price (.row cell.row) + price (.col cell.col)) := by
    funext cell
    rw [reducedPrice]
    ring
  have basic : signedSum (alternate .minus cells) (reducedPrice cost price) = 0 :=
    signedSum_of_zero fun step member =>
      reducedPrice_of_mem prices (closes.within (cell_mem_of_mem_alternate member))
  calc signedSum (loopAlong entering cells) cost.price
      = signedSum (loopAlong entering cells) (reducedPrice cost price) := by
        rw [parts, signedSum_add, closes.signedSum_eq_zero price, add_zero]
    _ = reducedPrice cost price entering := by
        rw [loopAlong, signedSum_cons, basic, Sign.factor, one_mul, add_zero]

end Table

/-! ## The entering cell -/

section Entering

variable {α : Type} [Scalar α] {embed : Int → α}

/-- The smallest reduced cost among some entries outside the basis, or zero while none
is negative. -/
structure LeastReduced (embed : Int → α) (basis : List Cell)
    (seen : List (Cell × Option Int)) (best : Option Cell × α) (least : Int) : Prop where
  compares : ∀ value, Scalar.less (embed value) best.2 = .ok (decide (value < least))
  below : ∀ cell value, (cell, some value) ∈ seen → cell ∉ basis → least ≤ value
  chosen : ∀ cell, best.1 = some cell →
    (cell, some least) ∈ seen ∧ cell ∉ basis ∧ least < 0
  unchosen : best.1 = none → least = 0

/-- An entry that is not smaller changes nothing. -/
theorem LeastReduced.skip {basis : List Cell} {seen : List (Cell × Option Int)}
    {best : Option Cell × α} {least : Int}
    (known : LeastReduced embed basis seen best least) {entry : Cell × Option Int}
    (passes : ∀ value, entry.2 = some value → entry.1 ∉ basis → least ≤ value) :
    LeastReduced embed basis (seen ++ [entry]) best least := by
  refine ⟨known.compares, fun cell value member absent => ?_, fun cell found => ?_,
    known.unchosen⟩
  · rcases List.mem_append.mp member with old | new
    · exact known.below cell value old absent
    · obtain rfl := List.mem_singleton.mp new
      exact passes value rfl absent
  · obtain ⟨member, facts⟩ := known.chosen cell found
    exact ⟨List.mem_append_left _ member, facts⟩

theorem LeastReduced.nonpos {basis : List Cell} {seen : List (Cell × Option Int)}
    {best : Option Cell × α} {least : Int}
    (known : LeastReduced embed basis seen best least) : least ≤ 0 := by
  cases found : best.1 with
  | none => exact (known.unchosen found).le
  | some cell => exact (known.chosen cell found).2.2.le

/-- An entry that is smaller replaces the best one. -/
theorem LeastReduced.replace (embedding : Scalar.Embedding embed) {basis : List Cell}
    {seen : List (Cell × Option Int)} {best : Option Cell × α} {least : Int}
    (known : LeastReduced embed basis seen best least) {cell : Cell} {value : Int}
    (absent : cell ∉ basis) (smaller : value < least) :
    LeastReduced embed basis (seen ++ [(cell, some value)]) (some cell, embed value)
      value := by
  refine ⟨fun other => ?_, fun other held member otherAbsent => ?_, ?_, ?_⟩
  · rw [embedding.less]
    rfl
  · rcases List.mem_append.mp member with old | new
    · exact smaller.le.trans (known.below other held old otherAbsent)
    · obtain ⟨_, equality⟩ := Prod.mk.inj (List.mem_singleton.mp new)
      exact (Option.some.inj equality).ge
  · intro other found
    obtain rfl := Option.some.inj found
    exact ⟨by simp, absent, smaller.trans_le known.nonpos⟩
  · intro none
    cases none

/-- The entering cell has the smallest reduced cost outside the basis, which is negative;
there is none when no reduced cost outside the basis is negative. -/
theorem enteringCell_eq_ok (embedding : Scalar.Embedding embed) {tolerance bound : α}
    (negated : Scalar.neg tolerance = .ok bound)
    (signed : ∀ value, Scalar.less (embed value) bound = .ok (decide (value < 0)))
    (reduced : Table (Option Int)) (basis : List Cell) :
    ∃ entering,
      enteringCell (reduced.mapEntries (Option.map embed)) basis tolerance = .ok entering ∧
      ∃ least,
        (∀ cell value, (cell, some value) ∈ reduced.entries → cell ∉ basis →
          least ≤ value) ∧
        (∀ cell, entering = some cell →
          (cell, some least) ∈ reduced.entries ∧ cell ∉ basis ∧ least < 0) ∧
        (entering = none → least = 0) := by
  have begins : LeastReduced embed basis [] (none, bound) 0 :=
    ⟨signed, by simp, by simp, fun _ => rfl⟩
  unfold enteringCell
  rw [negated, ok_bind, Table.entries_mapEntries, List.foldlM_map]
  refine bind_succeeds (foldlM_invariant
    (fun seen best => ∃ least, LeastReduced embed basis seen best least) ⟨0, begins⟩ ?_) ?_
  · rintro seen ⟨cell, value⟩ best ⟨least, known⟩ _
    cases value with
    | none => exact ⟨best, rfl, least, known.skip (by simp)⟩
    | some value =>
        by_cases basic : cell ∈ basis
        · refine ⟨best, by simp [basic], least, known.skip fun _ _ absent => ?_⟩
          exact absurd basic absent
        · by_cases smaller : value < least
          · refine ⟨(some cell, embed value), ?_, value, ?_⟩
            · simp [basic, known.compares, smaller]
            · exact known.replace embedding basic smaller
          · refine ⟨best, by simp [basic, known.compares, smaller], least, ?_⟩
            apply known.skip
            rintro _ ⟨⟩ _
            exact not_lt.mp smaller
  · rintro ⟨entering, limit⟩ ⟨least, known⟩
    exact ⟨entering, rfl, least, known.below, known.chosen, known.unchosen⟩

end Entering

end OptimalPlans.Transport
