import OptimalPlans.Proofs.Assignment.MatchingCost

/-!
# Prices between insertions

While rows are inserted one by one, a column never pays a price above zero, and it pays
none before it has a partner.  A search only lowers the prices of columns that are
matched, by amounts that are not negative, and the way back leaves no column without a
partner that had one.  Together with the soundness of the matching this makes the prices
add up to what the matching costs once all rows are in.
-/

namespace OptimalPlans.Assignment

variable {n : Nat} {costs : Matrix Rat n} {rows : Fin n → Prop} {inserted : Fin n}
  {order : List (Fin n)}

/-- Columns pay no price above zero, and those without a partner pay none. -/
structure Matching.Discounted (matching : Matching Rat n) : Prop where
  nonpos : ∀ col, matching.colPrice.get col ≤ 0
  vacant : ∀ col, matching.partner.get col = none → matching.colPrice.get col = 0

/-- Only prices and vacancies matter. -/
theorem Matching.Discounted.congr {matching other : Matching Rat n}
    (discounted : matching.Discounted) (prices : other.colPrice = matching.colPrice)
    (vacancies : ∀ col, other.partner.get col = none → matching.partner.get col = none) :
    other.Discounted := by
  refine ⟨fun col => ?_, fun col vacant => ?_⟩
  · rw [prices]
    exact discounted.nonpos col
  · rw [prices]
    exact discounted.vacant col (vacancies col vacant)

theorem discounted_empty : (Matching.empty : Matching Rat n).Discounted := by
  have free : ∀ col : Fin n, (Matching.empty : Matching Rat n).colPrice.get col = 0 :=
    fun col => Vector.getElem_replicate col.isLt
  exact ⟨fun col => (free col).le, fun col _ => free col⟩

/-! ## The search -/

section Search

variable {search pending : Search Rat (Option Rat) n}

/-- Moving by the least gap of a free column lowers prices of matched columns only. -/
theorem Search.Grown.discounted_move (grown : search.Grown costs rows inserted order)
    {chosen : Fin n} (free : chosen ∉ order) (discounted : search.matching.Discounted) :
    (search.move inserted
      (search.leastGap costs inserted chosen)).matching.Discounted := by
  refine ⟨fun col => ?_, fun col vacant => ?_⟩
  · have paid := discounted.nonpos col
    rw [Search.colPrice_move]
    split
    next used =>
        have grew : order ≠ [] := List.ne_nil_of_mem ((grown.used col).mp used)
        have amount := grown.leastGap_nonneg grew free
        linarith
    next => exact paid
  · have idle : search.used.get col = false := by
      rw [← Bool.not_eq_true, grown.used]
      exact fun member => grown.held col member vacant
    rw [Search.colPrice_move, idle]
    exact discounted.vacant col vacant

theorem Matching.Discounted.relax (discounted : search.matching.Discounted)
    (standing : Option (Fin n)) (row : Fin n) :
    ((search.enter standing).relax costs standing row).matching.Discounted := by
  cases standing with
  | none => exact discounted.congr rfl fun _ vacant => vacant
  | some col => exact discounted.congr rfl fun _ vacant => vacant

/-- What holds of the column prices before a search holds after it. -/
theorem Search.Grown.discounted_run {budget : Nat} {standing : Option (Fin n)}
    {row : Fin n}
    (grown : ((pending.enter standing).relax costs standing row).Grown costs rows
      inserted order)
    (discounted : pending.matching.Discounted) {found : Matching Rat n} {last : Fin n}
    (result : Search.run costs inserted budget pending standing row = some (found, last)) :
    found.Discounted := by
  -- Every turn moves the prices of a grown tree, which the next column makes grow.
  induction budget generalizing pending standing row order with
  | zero => cases result
  | succ budget induction =>
      obtain ⟨col, free, least, turn⟩ := grown.turn_eq_some
      have moved := grown.discounted_move free (discounted.relax standing row)
      rw [Search.run_succ turn] at result
      split at result
      next vacant =>
          obtain ⟨rfl, rfl⟩ := Prod.mk.inj (Option.some.inj result)
          exact moved
      next next partner =>
          exact induction ((grown.poised_move free least).relax partner) moved result

end Search

/-! ## The way back -/

/-- The augmentation changes no price and leaves no column without a partner that had
one. -/
theorem Matching.Open.augment_keeps (budget : Nat) {matching : Matching Rat n} {col : Fin n}
    {earlier : List (Fin n)} (opened : matching.Open costs rows inserted col earlier) :
    (matching.augment inserted budget col).colPrice = matching.colPrice ∧
      ∀ other, (matching.augment inserted budget col).partner.get other = none →
        matching.partner.get other = none := by
  induction budget generalizing matching col earlier with
  | zero => exact ⟨rfl, fun _ vacant => vacant⟩
  | succ budget induction =>
      -- A column that takes a partner is no longer vacant, the others stay as they are.
      have given : ∀ (row other : Fin n),
          (matching.give col (some row)).partner.get other = none →
            matching.partner.get other = none := by
        intro row other vacant
        rw [Matching.partner_give] at vacant
        split at vacant
        next => cases vacant
        next => exact vacant
      rw [Matching.augment_succ]
      cases via : matching.via.get col with
      | none => exact ⟨rfl, given inserted⟩
      | some previous =>
          obtain ⟨rest, _, handed⟩ := opened.hand via
          obtain ⟨prices, vacancies⟩ := induction handed
          have member : previous ∈ earlier := opened.wayBack.1 previous via
          obtain ⟨row, partner⟩ :=
            Option.ne_none_iff_exists'.mp (opened.held previous member)
          refine ⟨prices, fun other vacant => ?_⟩
          have before := vacancies other vacant
          rw [partner] at before
          exact given row other before

/-! ## Insertions -/

/-- Inserting a row keeps what holds of the column prices. -/
theorem Matching.Sound.discounted_insert {matching : Matching Rat n}
    (sound : matching.Sound costs rows) (fresh : ¬ rows inserted)
    (discounted : matching.Discounted) : (matching.insert costs inserted).Discounted := by
  have grown : (((Search.start matching).enter none).relax costs none inserted).Grown
      costs rows inserted [] := grown_relax_start sound fresh
  have enough : n ≤ (2 * n + 2) + ([] : List (Fin n)).length := by omega
  obtain ⟨found, col, earlier, result, opened⟩ := grown.run_succeeds enough
  have ended : found.Discounted := grown.discounted_run discounted result
  obtain ⟨prices, vacancies⟩ := opened.augment_keeps (n + 1)
  unfold Matching.insert
  rw [result]
  exact ended.congr prices vacancies

/-- The matching after a number of rows is inserted. -/
def matchingAfter (costs : Matrix Rat n) (count : Nat) : Matching Rat n :=
  ((List.finRange n).take count).foldl (Matching.insert costs) Matching.empty

theorem cheapestMatching_eq (costs : Matrix Rat n) :
    cheapestMatching costs = matchingAfter costs n := by
  rw [matchingAfter, List.take_of_length_le (List.length_finRange).le]
  rfl

theorem mem_take_finRange {count : Nat} {row : Fin n} :
    row ∈ (List.finRange n).take count ↔ row.val < count := by
  rw [List.mem_take_iff_getElem]
  constructor
  · rintro ⟨index, bound, rfl⟩
    have small : index < count := (lt_min_iff.mp bound).1
    simpa using small
  · intro below
    exact ⟨row.val, by simp [below], by simp⟩

/-- After a number of rows the matching is sound for them, and only matched columns pay
a price. -/
theorem matchingAfter_sound (costs : Matrix Rat n) (count : Nat) :
    (matchingAfter costs count).Sound costs (fun row => row.val < count) ∧
      (matchingAfter costs count).Discounted := by
  have kept : (matchingAfter costs count).Sound costs
        (· ∈ (List.finRange n).take count) ∧
      (matchingAfter costs count).Discounted := by
    unfold matchingAfter
    apply foldl_invariant fun (seen : List (Fin n)) (matching : Matching Rat n) =>
      matching.Sound costs (· ∈ seen) ∧ matching.Discounted
    · exact ⟨sound_empty.congr (by simp), discounted_empty⟩
    · rintro seen row matching opening ⟨sound, discounted⟩
      have nodup : (seen ++ [row]).Nodup :=
        ((List.nodup_finRange n).sublist (List.take_sublist _ _)).sublist opening.sublist
      have fresh : row ∉ seen := fun member =>
        List.disjoint_of_nodup_append nodup member (List.mem_singleton_self row)
      exact ⟨(sound.insert fresh).congr (by simp), sound.discounted_insert fresh discounted⟩
  exact ⟨kept.1.congr fun row => mem_take_finRange, kept.2⟩

/-- The cost of a column with its partner, nothing where it has none. -/
def Matching.costAt (costs : Matrix Rat n) (matching : Matching Rat n) (col : Fin n) : Rat :=
  ((matching.partner.get col).map fun row => (costs.get row).get col).getD 0

/-- What the matched pairs cost. -/
def Matching.pairCost (costs : Matrix Rat n) (matching : Matching Rat n) : Rat :=
  ∑ col : Fin n, matching.costAt costs col

/-- When every row is matched, the prices add up to what the matched pairs cost. -/
theorem Matching.Sound.sum_prices {matching : Matching Rat n}
    (sound : matching.Sound costs fun _ => True) :
    (∑ row : Fin n, matching.rowPrice.get row) + ∑ col : Fin n, matching.colPrice.get col =
      matching.pairCost costs := by
  obtain ⟨task, stands⟩ := sound.exists_perm
  have paid : ∀ row : Fin n, matching.rowPrice.get row + matching.colPrice.get (task row) =
      matching.costAt costs (task row) := by
    intro row
    have holds : matching.partner.get (task row) = some row := (stands row _).mpr rfl
    have tight := sound.tight row (task row) holds
    rw [Matching.gap_eq] at tight
    rw [Matching.costAt, holds, Option.map_some, Option.getD_some]
    linarith
  have columns : ∑ row : Fin n, matching.colPrice.get (task row) =
      ∑ col : Fin n, matching.colPrice.get col :=
    Equiv.sum_comp task fun col : Fin n => matching.colPrice.get col
  calc (∑ row : Fin n, matching.rowPrice.get row) + ∑ col : Fin n, matching.colPrice.get col
      = ∑ row : Fin n, (matching.rowPrice.get row + matching.colPrice.get (task row)) := by
        rw [Finset.sum_add_distrib, columns]
    _ = ∑ row : Fin n, matching.costAt costs (task row) :=
        Finset.sum_congr rfl fun row _ => paid row
    _ = matching.pairCost costs := Equiv.sum_comp task (matching.costAt costs)

/-- After any number of insertions each inserted row is matched to exactly one column and
all other columns are left over.  No pair with an inserted row costs less than its two
prices, and matched pairs cost just these.  No column pays more than zero, and one that is
left over pays nothing.  When all rows are inserted, the prices add up to what the matched
pairs cost. -/
theorem insertions_keep_prices (costs : Matrix Rat n) (count : Nat) :
    (∀ row : Fin n, row.val < count →
      ∃! col : Fin n, (matchingAfter costs count).partner.get col = some row) ∧
    (∀ row col : Fin n, (matchingAfter costs count).partner.get col = some row →
      row.val < count) ∧
    (∀ row col : Fin n, row.val < count →
      (matchingAfter costs count).rowPrice.get row +
        (matchingAfter costs count).colPrice.get col ≤ (costs.get row).get col) ∧
    (∀ row col : Fin n, (matchingAfter costs count).partner.get col = some row →
      (matchingAfter costs count).rowPrice.get row +
        (matchingAfter costs count).colPrice.get col = (costs.get row).get col) ∧
    (∀ col : Fin n, (matchingAfter costs count).colPrice.get col ≤ 0 ∧
      ((matchingAfter costs count).partner.get col = none →
        (matchingAfter costs count).colPrice.get col = 0)) ∧
    (cheapestMatching costs = matchingAfter costs n ∧
      (∑ row : Fin n, (cheapestMatching costs).rowPrice.get row) +
          ∑ col : Fin n, (cheapestMatching costs).colPrice.get col =
        (cheapestMatching costs).pairCost costs) := by
  obtain ⟨sound, discounted⟩ := matchingAfter_sound costs count
  refine ⟨fun row below => ?_, fun row col holds => ?_, fun row col below => ?_,
    fun row col holds => ?_, fun col => ⟨discounted.nonpos col, discounted.vacant col⟩,
    cheapestMatching_eq costs, (cheapestMatching_sound costs).sum_prices⟩
  · obtain ⟨col, holds⟩ := (sound.matched row).mp below
    exact ⟨col, holds, fun other otherHolds =>
      sound.injective row other col otherHolds holds⟩
  · exact (sound.matched row).mpr ⟨col, holds⟩
  · have gap := sound.feasible row col below
    rw [Matching.gap_eq] at gap
    linarith
  · have gap := sound.tight row col holds
    rw [Matching.gap_eq] at gap
    linarith

end OptimalPlans.Assignment
