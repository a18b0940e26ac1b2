import OptimalPlans.Proofs.Assignment.InsertionEnd
import OptimalPlans.Proofs.Assignment.CheapestAssignment

/-!
# Offsets of a row

Adding an amount to all costs of a row adds it to the price that the row pays and to
nothing else.  As long as the row is not in, no gap to it is looked at.  When it is
inserted, all slacks of the first turn grow by the amount, so the same column is the
closest, and the move adds the amount to the price of the row.  From then on the gaps are
what they would have been, and the two searches go on in step.
-/

namespace OptimalPlans.Assignment

variable {n : Nat} {costs : Matrix Rat n} {inserted line : Fin n} {offset : Rat}
  {matching : Matching Rat n} {search : Search Rat (Option Rat) n}

/-- The costs with an offset on all of a row. -/
def Matrix.raised (costs : Matrix Rat n) (line : Fin n) (offset : Rat) : Matrix Rat n :=
  Vector.ofFn fun row => Vector.ofFn fun col =>
    (costs.get row).get col + if row = line then offset else 0

/-- The matching in which a row pays an offset more. -/
def Matching.raised (matching : Matching Rat n) (line : Fin n) (offset : Rat) :
    Matching Rat n :=
  { matching with
    rowPrice := Vector.ofFn fun row =>
      matching.rowPrice.get row + if row = line then offset else 0 }

/-- The search in which a row pays an offset more. -/
def Search.raised (search : Search Rat (Option Rat) n) (line : Fin n) (offset : Rat) :
    Search Rat (Option Rat) n :=
  { search with matching := search.matching.raised line offset }

theorem Matrix.get_raised (row col : Fin n) :
    ((costs.raised line offset).get row).get col =
      (costs.get row).get col + if row = line then offset else 0 := by
  rw [Matrix.raised, Vector.get_ofFn, Vector.get_ofFn]

theorem Matching.rowPrice_raised (row : Fin n) :
    (matching.raised line offset).rowPrice.get row =
      matching.rowPrice.get row + if row = line then offset else 0 :=
  Vector.get_ofFn _ row

theorem Search.eq_of_get {first second : Search Rat (Option Rat) n}
    (used : first.used = second.used)
    (partner : first.matching.partner = second.matching.partner)
    (via : first.matching.via = second.matching.via)
    (slack : ∀ col, first.slack.get col = second.slack.get col)
    (rowPrice : ∀ row, first.matching.rowPrice.get row = second.matching.rowPrice.get row)
    (colPrice : ∀ col, first.matching.colPrice.get col = second.matching.colPrice.get col) :
    first = second := by
  obtain ⟨⟨firstRow, firstCol, firstPartner, firstVia⟩, firstUsed, firstSlack⟩ := first
  obtain ⟨⟨secondRow, secondCol, secondPartner, secondVia⟩, secondUsed, secondSlack⟩ := second
  obtain rfl : firstRow = secondRow := Vector.ext fun index bound => rowPrice ⟨index, bound⟩
  obtain rfl : firstCol = secondCol := Vector.ext fun index bound => colPrice ⟨index, bound⟩
  obtain rfl : firstSlack = secondSlack := Vector.ext fun index bound => slack ⟨index, bound⟩
  cases used
  cases partner
  cases via
  rfl

/-! ## A row that is in -/

section Inside

variable {standing : Option (Fin n)} {row : Fin n}

theorem Search.gap_raised (col : Fin n) :
    (search.raised line offset).matching.gap (costs.raised line offset) row col =
      search.matching.gap costs row col := by
  have colPrice : (search.raised line offset).matching.colPrice = search.matching.colPrice := rfl
  have rowPrice : (search.raised line offset).matching.rowPrice.get row =
      _ := Matching.rowPrice_raised row
  rw [Matching.gap_eq, Matching.gap_eq, Matrix.get_raised, rowPrice, colPrice]
  ring

theorem Search.relax_raised :
    (search.raised line offset).relax (costs.raised line offset) standing row =
      (search.relax costs standing row).raised line offset := by
  have improves : ∀ col, (search.raised line offset).improves
      (costs.raised line offset) row col = search.improves costs row col := by
    intro col
    rw [Search.improves_eq, Search.improves_eq, Search.gap_raised]
    rfl
  simp only [Search.relax, improves, Search.gap_raised]
  rfl

theorem Search.enter_raised :
    (search.raised line offset).enter standing = (search.enter standing).raised line offset := by
  cases standing <;> rfl

theorem Search.move_raised (amount : Rat) :
    (search.raised line offset).move inserted amount =
      (search.move inserted amount).raised line offset := by
  refine Search.eq_of_get rfl rfl rfl (fun _ => rfl) (fun row => ?_) (fun _ => rfl)
  have reaches : (search.raised line offset).reaches inserted row =
      search.reaches inserted row := rfl
  have before : (search.raised line offset).matching.rowPrice.get row = _ :=
    Matching.rowPrice_raised row
  have after : ((search.move inserted amount).raised line offset).matching.rowPrice.get row =
      _ := Matching.rowPrice_raised row
  rw [Search.rowPrice_move, after, Search.rowPrice_move, before, reaches]
  split <;> ring

/-- A turn keeps the offset of a row that is in, and chooses the same column. -/
theorem Search.turn_raised :
    (search.raised line offset).turn (costs.raised line offset) inserted standing row =
      (search.turn costs inserted standing row).map fun outcome =>
        (outcome.1.raised line offset, outcome.2) := by
  have closest : ∀ any : Search Rat (Option Rat) n,
      (any.raised line offset).closest = any.closest := fun _ => rfl
  have offer : ∀ (any : Search Rat (Option Rat) n) (col : Fin n),
      (any.raised line offset).offer col = any.offer col := fun _ _ => rfl
  simp only [Search.turn, Search.enter_raised, Search.relax_raised, closest, offer,
    Search.move_raised]
  split <;> rfl

/-- Searches whose turns agree run alike when they run alike from then on. -/
theorem Search.run_of_turn {first : Search Rat (Option Rat) n} {budget : Nat}
    (turn : first.turn (costs.raised line offset) inserted standing row =
      (search.turn costs inserted standing row).map fun outcome =>
        (outcome.1.raised line offset, outcome.2))
    (later : ∀ (next : Search Rat (Option Rat) n) (standing : Option (Fin n)) (row : Fin n),
      Search.run (costs.raised line offset) inserted budget
          (next.raised line offset) standing row =
        (Search.run costs inserted budget next standing row).map fun outcome =>
          (outcome.1.raised line offset, outcome.2)) :
    Search.run (costs.raised line offset) inserted (budget + 1) first standing row =
      (Search.run costs inserted (budget + 1) search standing row).map fun outcome =>
        (outcome.1.raised line offset, outcome.2) := by
  cases turned : search.turn costs inserted standing row with
  | none => simp [Search.run, turn, turned]
  | some outcome =>
      obtain ⟨next, col⟩ := outcome
      rw [turned, Option.map_some] at turn
      have partner : (next.raised line offset).matching.partner = next.matching.partner := rfl
      rw [Search.run_succ turn, Search.run_succ turned, partner]
      cases next.matching.partner.get col with
      | none => rfl
      | some held => exact later next (some col) held

theorem Search.run_raised (budget : Nat) :
    Search.run (costs.raised line offset) inserted budget (search.raised line offset)
        standing row =
      (Search.run costs inserted budget search standing row).map fun outcome =>
        (outcome.1.raised line offset, outcome.2) := by
  induction budget generalizing search standing row with
  | zero => rfl
  | succ budget induction =>
      exact Search.run_of_turn Search.turn_raised fun _ _ _ => induction

theorem Matching.augment_raised (budget : Nat) (col : Fin n) :
    (matching.raised line offset).augment inserted budget col =
      (matching.augment inserted budget col).raised line offset := by
  induction budget generalizing matching col with
  | zero => rfl
  | succ budget induction =>
      have via : (matching.raised line offset).via = matching.via := rfl
      rw [Matching.augment_succ, Matching.augment_succ, via]
      cases matching.via.get col with
      | none => rfl
      | some previous =>
          exact @induction (matching.give col (matching.partner.get previous)) previous

/-- Insertions keep the offset of a row that is in. -/
theorem Matching.insert_raised :
    (matching.raised line offset).insert (costs.raised line offset) inserted =
      (matching.insert costs inserted).raised line offset := by
  have start : (Search.start (matching.raised line offset) : Search Rat (Option Rat) n) =
      (Search.start matching).raised line offset := rfl
  rw [Matching.insert, Matching.insert, start, Search.run_raised]
  cases Search.run costs inserted (2 * n + 2) (Search.start matching) none inserted with
  | none => rfl
  | some outcome => exact Matching.augment_raised (n + 1) outcome.2

end Inside

/-! ## A row that is not in -/

section Outside

variable {standing : Option (Fin n)} {row : Fin n}

theorem Search.partner_turn {next : Search Rat (Option Rat) n} {col : Fin n}
    (turned : search.turn costs inserted standing row = some (next, col)) :
    next.matching.partner = search.matching.partner := by
  unfold Search.turn at turned
  simp only at turned
  split at turned
  next => cases turned
  next =>
      obtain ⟨rfl, rfl⟩ := Prod.mk.inj (Option.some.inj turned)
      cases standing <;> rfl

/-- A turn looks at no row but the one it stands on. -/
theorem Search.turn_apart (apart : row ≠ line) :
    search.turn (costs.raised line offset) inserted standing row =
      search.turn costs inserted standing row := by
  have gap : ∀ (any : Matching Rat n) (col : Fin n),
      any.gap (costs.raised line offset) row col = any.gap costs row col := by
    intro any col
    rw [Matching.gap_eq, Matching.gap_eq, Matrix.get_raised, if_neg apart, add_zero]
  have improves : ∀ (any : Search Rat (Option Rat) n) (col : Fin n),
      any.improves (costs.raised line offset) row col =
        any.improves costs row col := by
    intro any col
    rw [Search.improves_eq, Search.improves_eq, gap]
  have relax : ∀ any : Search Rat (Option Rat) n,
      any.relax (costs.raised line offset) standing row =
        any.relax costs standing row := by
    intro any
    simp only [Search.relax, improves, gap]
  simp only [Search.turn, relax]

/-- A search meets inserted rows only. -/
theorem Search.run_apart (absent : ∀ col, search.matching.partner.get col ≠ some line)
    (apart : row ≠ line) (budget : Nat) :
    Search.run (costs.raised line offset) inserted budget search standing row =
      Search.run costs inserted budget search standing row := by
  induction budget generalizing search standing row with
  | zero => rfl
  | succ budget induction =>
      have same : search.turn (costs.raised line offset) inserted standing row = _ :=
        Search.turn_apart apart
      cases turned : search.turn costs inserted standing row with
      | none => simp [Search.run, same, turned]
      | some outcome =>
          obtain ⟨next, col⟩ := outcome
          have kept : ∀ other, next.matching.partner.get other ≠ some line := by
            rw [Search.partner_turn turned]
            exact absent
          rw [Search.run_succ (same.trans turned), Search.run_succ turned]
          cases partner : next.matching.partner.get col with
          | none => rfl
          | some held =>
              refine induction kept ?_
              rintro rfl
              exact kept col partner

theorem Matching.insert_apart (absent : ∀ col, matching.partner.get col ≠ some line)
    (apart : inserted ≠ line) :
    matching.insert (costs.raised line offset) inserted =
      matching.insert costs inserted := by
  have run : Search.run (costs.raised line offset) inserted (2 * n + 2)
        (Search.start matching) none inserted =
      Search.run costs inserted (2 * n + 2) (Search.start matching) none inserted :=
    Search.run_apart absent apart (2 * n + 2)
  rw [Matching.insert, Matching.insert, run]

end Outside

/-! ## The row that is inserted -/

/-- The search in which every slack has grown by an amount. -/
def Search.widened (search : Search Rat (Option Rat) n) (offset : Rat) :
    Search Rat (Option Rat) n :=
  { search with slack := Vector.ofFn fun col => (search.slack.get col).map (· + offset) }

section Entering

theorem Search.slack_widened (col : Fin n) :
    (search.widened offset).slack.get col = (search.slack.get col).map (· + offset) :=
  Vector.get_ofFn _ col

theorem Search.offer_widened (col : Fin n) :
    (search.widened offset).offer col = (search.offer col).map (· + offset) := by
  have used : (search.widened offset).used = search.used := rfl
  rw [Search.offer_eq, Search.offer_eq, used, Search.slack_widened]
  split <;> rfl

theorem leads_widened (left right : Option Rat) :
    Pricing.leads Rat (left.map (· + offset)) (right.map (· + offset)) =
      Pricing.leads Rat left right := by
  cases left <;> cases right <;> simp [Pricing.leads]

theorem Search.closest_widened : (search.widened offset).closest = search.closest := by
  simp only [Search.closest, Search.offer_widened, leads_widened]

/-- Before a column is used, moving by the offset more takes it from the slacks again and
gives it to the inserted row. -/
theorem Search.move_widened (unused : ∀ col, search.used.get col = false) (amount : Rat) :
    (search.widened offset).move inserted (amount + offset) =
      (search.move inserted amount).raised inserted offset := by
  have reaches : ∀ row, search.reaches inserted row = decide (row = inserted) := by
    intro row
    simp [Search.reaches_eq, unused, beq_eq_decide]
  refine Search.eq_of_get rfl rfl rfl (fun col => ?_) (fun row => ?_) (fun col => ?_)
  · have used : (search.widened offset).used.get col = false := unused col
    have after : ((search.move inserted amount).raised inserted offset).slack =
        (search.move inserted amount).slack := rfl
    rw [after, Search.slack_move, Search.slack_move, used, unused, Search.slack_widened]
    cases search.slack.get col <;> simp
  · have after : ((search.move inserted amount).raised inserted offset).matching.rowPrice.get
        row = _ := Matching.rowPrice_raised row
    have before : (search.widened offset).matching = search.matching := rfl
    have same : (search.widened offset).reaches inserted row = _ := reaches row
    rw [after, Search.rowPrice_move, Search.rowPrice_move, same, reaches, before]
    by_cases here : row = inserted
    · simp only [here, decide_true, if_true]
      ring
    · simp [here]
  · have used : (search.widened offset).used.get col = false := unused col
    have after : ((search.move inserted amount).raised inserted offset).matching.colPrice =
        (search.move inserted amount).matching.colPrice := rfl
    have before : (search.widened offset).matching = search.matching := rfl
    rw [after, Search.colPrice_move, Search.colPrice_move, used, unused, before]
    rfl

/-- In the first turn of the row all slacks are wider. -/
theorem Search.relax_start_raised :
    (Search.start matching).relax (costs.raised line offset) none line =
      ((Search.start matching : Search Rat (Option Rat) n).relax costs none line).widened
        offset := by
  have gap : ∀ col, matching.gap (costs.raised line offset) line col =
      matching.gap costs line col + offset := by
    intro col
    rw [Matching.gap_eq, Matching.gap_eq, Matrix.get_raised, if_pos rfl]
    ring
  have relaxed : ∀ any : Matrix Rat n,
      (Search.start matching : Search Rat (Option Rat) n).relax any none line =
        { Search.start matching with
          slack := Vector.ofFn fun col => some (matching.gap any line col)
          matching := { matching with via := Vector.ofFn fun _ => none } } := by
    intro any
    simp only [Search.relax, improves_start, if_true]
    rfl
  simp only [relaxed, Search.widened, gap, Vector.get_ofFn, Option.map_some]

theorem Search.turn_start_raised :
    (Search.start matching).turn (costs.raised line offset) line none line =
      ((Search.start matching : Search Rat (Option Rat) n).turn costs line none line).map
        fun outcome => (outcome.1.raised line offset, outcome.2) := by
  let relaxed := (Search.start matching : Search Rat (Option Rat) n).relax costs none line
  have unused : ∀ col, relaxed.used.get col = false :=
    fun col => Vector.getElem_replicate col.isLt
  have amount : ∀ col, Pricing.amount ((relaxed.widened offset).offer col) =
      Pricing.amount (relaxed.offer col) + offset := by
    intro col
    rw [Search.offer_widened, Search.offer_eq, unused, slack_relax, improves_start, if_pos rfl]
    rfl
  have move : ∀ col, (relaxed.widened offset).move line
      (Pricing.amount ((relaxed.widened offset).offer col)) =
        (relaxed.move line (Pricing.amount (relaxed.offer col))).raised line offset := by
    intro col
    rw [amount, Search.move_widened unused]
  have closest : (relaxed.widened offset).closest = relaxed.closest := Search.closest_widened
  simp only [Search.turn, Search.enter, Search.relax_start_raised]
  rw [closest]
  cases relaxed.closest with
  | none => rfl
  | some col => exact congrArg (fun next => some (next, col)) (move col)

/-- The insertion of the row ends as before, with the offset on the price of the row. -/
theorem Matching.Sound.insert_entering {rows : Fin n → Prop} (sound : matching.Sound costs rows)
    (fresh : ¬ rows line) :
    matching.insert (costs.raised line offset) line =
      (matching.insert costs line).raised line offset := by
  have run : Search.run (costs.raised line offset) line (2 * n + 1 + 1)
      (Search.start matching) none line = _ :=
    Search.run_of_turn Search.turn_start_raised fun _ _ _ => Search.run_raised (2 * n + 1)
  have enough : n ≤ 2 * n + 1 + 1 + ([] : List (Fin n)).length := by omega
  obtain ⟨found, col, _, result, _⟩ := (StandsAt.start.grown sound fresh).run_succeeds enough
  have budget : 2 * n + 2 = 2 * n + 1 + 1 := rfl
  rw [Matching.insert, Matching.insert, budget, run, result]
  exact Matching.augment_raised (n + 1) col

end Entering

/-! ## All rows -/

/-- After any number of insertions the offset is on the price of the row, once it is in. -/
theorem matchingAfter_raised (costs : Matrix Rat n) (line : Fin n) (offset : Rat)
    {count : Nat} (bound : count ≤ n) :
    matchingAfter (costs.raised line offset) count =
      if line.val < count then (matchingAfter costs count).raised line offset
      else matchingAfter costs count := by
  induction count with
  | zero => simp only [matchingAfter, List.take_zero, List.foldl_nil, not_lt_zero, if_false]
  | succ count induction =>
      obtain ⟨next, rfl⟩ : ∃ next : Fin n, next.val = count := ⟨⟨count, bound⟩, rfl⟩
      have sound := (matchingAfter_sound costs next.val).1
      have before := induction (Nat.le_of_succ_le bound)
      rw [matchingAfter_succ, matchingAfter_succ, before]
      rcases lt_trichotomy line.val next.val with inside | same | outside
      · rw [if_pos inside, if_pos (Nat.lt_succ_of_lt inside)]
        exact Matching.insert_raised
      · obtain rfl : line = next := Fin.ext same
        rw [if_neg (lt_irrefl _), if_pos (Nat.lt_succ_self _)]
        exact sound.insert_entering (lt_irrefl _)
      · rw [if_neg (by omega), if_neg (by omega)]
        refine Matching.insert_apart (fun col holds => ?_) ?_
        · have entered := (sound.matched line).mpr ⟨col, holds⟩
          omega
        · rintro rfl
          exact lt_irrefl _ outside

/-- The offset of a row changes no partner. -/
theorem partner_cheapestMatching_raised (costs : Matrix Rat n) (line : Fin n) (offset : Rat) :
    (cheapestMatching (costs.raised line offset)).partner = (cheapestMatching costs).partner := by
  rw [cheapestMatching_eq, matchingAfter_raised costs line offset le_rfl, if_pos line.isLt,
    cheapestMatching_eq]
  rfl

/-! ## Tables -/

section Tables

open Transport

variable {rows cols row : Nat} {table : Table Rat}

/-- The table with an offset on all costs of a row. -/
def raisedTable (table : Table Rat) (row : Nat) (offset : Rat) : Table Rat :=
  table.modify row (List.map (· + offset))

theorem shaped_raisedTable (shaped : table.Shaped rows cols) :
    (raisedTable table row offset).Shaped rows cols := by
  refine ⟨?_, fun entries member => ?_⟩
  · rw [raisedTable, List.length_modify]
    exact shaped.length_eq
  · obtain ⟨index, bound, rfl⟩ := List.getElem_of_mem member
    simp only [raisedTable, List.length_modify] at bound
    simp only [raisedTable, List.getElem_modify]
    have length := shaped.row_length_eq _ (List.getElem_mem bound)
    split
    · rw [List.length_map, length]
    · exact length

theorem price_raisedTable (shaped : table.Shaped rows cols) (bound : row < rows) {cell : Cell}
    (inside : cell.col < cols) :
    (raisedTable table row offset).price cell =
      table.price cell + if cell.row = row then offset else 0 := by
  simp only [Table.price, raisedTable, List.getElem?_modify]
  by_cases here : cell.row = row
  · have rowBound : cell.row < table.length := by
      rw [here, shaped.length_eq]
      exact bound
    have colBound : cell.col < table[cell.row].length := by
      rw [shaped.row_length_eq _ (List.getElem_mem rowBound)]
      exact inside
    rw [List.getElem?_eq_getElem rowBound, if_pos here]
    simp [here.symm, colBound]
  · simp [here, Ne.symm here]

/-- The square matrix of the costs of a table. -/
def square (n : Nat) (table : Table Rat) : Matrix Rat n :=
  Vector.ofFn fun row => Vector.ofFn fun col => table.price ⟨row.val, col.val⟩

theorem get_square (row col : Fin n) :
    ((square n table).get row).get col = table.price ⟨row.val, col.val⟩ := by
  rw [square, Vector.get_ofFn, Vector.get_ofFn]

theorem cheapestTasks_eq (size : paddedSize table = n) :
    cheapestTasks table = (List.range table.length).map
      (taskOf (cheapestMatching (square n table)).partner (table.headD []).length) := by
  subst size
  rfl

theorem square_raisedTable (shaped : table.Shaped rows n) (line : Fin n)
    (bound : line.val < rows) :
    square n (raisedTable table line.val offset) = (square n table).raised line offset := by
  have equal : ∀ row col : Fin n,
      ((square n (raisedTable table line.val offset)).get row).get col =
        (((square n table).raised line offset).get row).get col := by
    intro row col
    rw [get_square, Matrix.get_raised, get_square, price_raisedTable shaped bound col.isLt]
    simp only [Fin.ext_iff]
  exact Vector.ext fun index indexBound => Vector.ext fun other otherBound =>
    equal ⟨index, indexBound⟩ ⟨other, otherBound⟩

/-- With tasks enough for all agents the tasks are found as before. -/
theorem cheapestTasks_raisedTable (shaped : table.Shaped rows cols) (narrow : rows ≤ cols)
    (bound : row < rows) :
    cheapestTasks (raisedTable table row offset) = cheapestTasks table := by
  have raisedShaped : (raisedTable table row offset).Shaped rows cols :=
    shaped_raisedTable shaped
  have positive : 0 < rows := Nat.zero_lt_of_lt bound
  have size : ∀ any : Table Rat, any.Shaped rows cols → paddedSize any = cols := by
    intro any anyShaped
    rw [paddedSize, anyShaped.length_eq, headD_length anyShaped positive, max_eq_right narrow]
  have matrix : square cols (raisedTable table row offset) =
      (square cols table).raised ⟨row, bound.trans_le narrow⟩ offset :=
    square_raisedTable shaped ⟨row, bound.trans_le narrow⟩ bound
  rw [cheapestTasks_eq (size _ raisedShaped), cheapestTasks_eq (size _ shaped), matrix,
    partner_cheapestMatching_raised, headD_length raisedShaped positive,
    headD_length shaped positive, raisedShaped.length_eq, shaped.length_eq]

/-- A matching of all agents costs the offset more. -/
theorem IsMatching.cost_raisedTable {pairs : List (Nat × Nat)}
    (isMatching : IsMatching rows cols pairs) (shaped : table.Shaped rows cols)
    (narrow : rows ≤ cols) (bound : row < rows) :
    matchingCost (raisedTable table row offset) pairs = matchingCost table pairs + offset := by
  have served : row ∈ pairs.map Prod.fst := by
    by_contra idle
    have nodup : (row :: pairs.map Prod.fst).Nodup :=
      List.nodup_cons.mpr ⟨idle, isMatching.agents_nodup⟩
    have within : ∀ agent ∈ row :: pairs.map Prod.fst, agent < rows := by
      rintro agent (_ | ⟨_, member⟩)
      · exact bound
      · obtain ⟨pair, pairMember, rfl⟩ := List.mem_map.mp member
        exact (isMatching.inTable pair pairMember).1
    have counted := length_le_of_nodup nodup within
    rw [List.length_cons, List.length_map, isMatching.length_eq, min_eq_left narrow] at counted
    omega
  have once : (pairs.map fun pair => if pair.1 = row then offset else 0).sum = offset := by
    have counted : (pairs.map Prod.fst).count row = 1 :=
      List.count_eq_one_of_mem isMatching.agents_nodup served
    have summed := List.sum_map_ite_eq (pairs.map Prod.fst) (fun _ => offset) (fun _ => 0) row
    rw [List.map_map, counted] at summed
    simpa [Function.comp_def] using summed
  have each : ∀ pair ∈ pairs, (raisedTable table row offset).price ⟨pair.1, pair.2⟩ =
      table.price ⟨pair.1, pair.2⟩ + if pair.1 = row then offset else 0 :=
    fun pair member => price_raisedTable shaped bound (isMatching.inTable pair member).2
  rw [matchingCost, List.map_congr_left each, List.sum_map_add, once]
  rfl

end Tables

/-- When there are tasks enough, an offset on all costs of an agent leaves the assignment as
it is, among equally cheap ones too, and adds the offset to the total. -/
theorem row_offset_keeps_assignment {rows cols row : Nat} {table : Transport.Table Rat}
    (shaped : table.Shaped rows cols) (narrow : rows ≤ cols) (bound : row < rows)
    (offset : Rat) :
    ∃ result, assign (fun cost => .ok cost) table = .ok result ∧
      assign (fun cost => .ok cost) (raisedTable table row offset) =
        .ok { result with totalCost := result.totalCost + offset } := by
  have positive : 0 < rows := Nat.zero_lt_of_lt bound
  obtain ⟨isMatching, _⟩ := cheapestTasks_isMatching shaped positive
  have tasks : cheapestTasks (raisedTable table row offset) = cheapestTasks table :=
    cheapestTasks_raisedTable shaped narrow bound
  refine ⟨_, by rw [assign, measureAll_ok, ok_bind, ofTasks_eq_ok shaped positive isMatching],
    ?_⟩
  rw [assign, measureAll_ok, ok_bind, tasks,
    ofTasks_eq_ok (shaped_raisedTable shaped) positive isMatching,
    isMatching.cost_raisedTable shaped narrow bound]

theorem tied_rows_keep_assignment :
    assign (fun cost => .ok cost) [[1, 1, 4], [1, (1 : Rat), 4]] =
        .ok ⟨[some 0, some 1], 2, true⟩ ∧
      assign (fun cost => .ok cost) [[1, 1, 4], [-6, (-6 : Rat), -3]] =
        .ok ⟨[some 0, some 1], -5, true⟩ := by
  have shaped : Transport.Table.Shaped 2 3 [[1, 1, 4], [1, (1 : Rat), 4]] := by decide
  have computed : assign (fun cost => .ok cost) [[1, 1, 4], [1, (1 : Rat), 4]] =
      .ok ⟨[some 0, some 1], 2, true⟩ := by
    cbv
  obtain ⟨result, assigned, moved⟩ :=
    row_offset_keeps_assignment shaped (by decide) (show 1 < 2 by decide) (-7)
  obtain rfl := Except.ok.inj (computed.symm.trans assigned)
  have table : raisedTable [[1, 1, 4], [1, (1 : Rat), 4]] 1 (-7) =
      [[1, 1, 4], [-6, -6, -3]] := by
    norm_num [raisedTable]
  rw [table] at moved
  refine ⟨computed, moved.trans ?_⟩
  norm_num

end OptimalPlans.Assignment
