import OptimalPlans.Proofs.Assignment.PriceMove

/-!
# The way back from a free column

Every turn of the search adds a column to the tree, so the search reaches a column
without a partner while it still may turn.  Handing the partners along the way back
leaves one column open at a time; closing the last one with the inserted row makes the
matching sound for one more row.
-/

namespace OptimalPlans.Assignment

variable {n : Nat} {costs : Matrix Rat n} {rows : Fin n → Prop} {inserted : Fin n}
  {search : Search Rat (Option Rat) n} {order : List (Fin n)}

/-! ## The end of the search -/

/-- A tree never holds every column, for the inserted row stands on none of them. -/
theorem Search.Grown.exists_free (grown : search.Grown costs rows inserted order) :
    ∃ col, col ∉ order := by
  by_contra full
  have everyHeld : ∀ col : Fin n, ∃ row, search.matching.partner.get col = some row := by
    intro col
    have member : col ∈ order := by
      by_contra absent
      exact full ⟨col, absent⟩
    exact Option.ne_none_iff_exists'.mp (grown.held col member)
  choose row partner using everyHeld
  have injective : Function.Injective row := by
    intro first second same
    apply grown.sound.injective (row first) first second (partner first)
    rw [same]
    exact partner second
  obtain ⟨col, stands⟩ := (Finite.injective_iff_surjective.mp injective) inserted
  apply grown.fresh
  refine (grown.sound.matched inserted).mpr ⟨col, ?_⟩
  rw [← stands]
  exact partner col

theorem length_lt_of_free {col : Fin n} (nodup : order.Nodup) (free : col ∉ order) :
    order.length < n := by
  have nodup : (col :: order).Nodup := List.nodup_cons.mpr ⟨free, nodup⟩
  simpa using nodup.length_le_card

/-- What a search hands to the augmentation: a column without a partner and its way back
to the inserted row. -/
structure Matching.Open (costs : Matrix Rat n) (rows : Fin n → Prop) (inserted : Fin n)
    (matching : Matching Rat n) (col : Fin n) (earlier : List (Fin n)) : Prop where
  feasible : ∀ row other, rows row ∨ row = inserted → 0 ≤ matching.gap costs row other
  fresh : ¬ rows inserted
  tight : ∀ (row other : Fin n), other ≠ col → matching.partner.get other = some row →
    matching.gap costs row other = 0
  matched : ∀ row, rows row ↔
    ∃ other : Fin n, other ≠ col ∧ matching.partner.get other = some row
  injective : ∀ (row first second : Fin n), first ≠ col → second ≠ col →
    matching.partner.get first = some row → matching.partner.get second = some row →
    first = second
  nodup : (col :: earlier).Nodup
  held : ∀ other ∈ earlier, matching.partner.get other ≠ none
  wayBack : WayBack costs inserted matching (col :: earlier)

theorem Search.run_succ {budget : Nat} {pending next : Search Rat (Option Rat) n}
    {standing : Option (Fin n)} {row col : Fin n}
    (turn : pending.turn costs inserted standing row = some (next, col)) :
    Search.run costs inserted (budget + 1) pending standing row =
      match next.matching.partner.get col with
      | none => some (next.matching, col)
      | some partner => Search.run costs inserted budget next (some col) partner := by
  rw [Search.run, turn]
  rfl

/-- A tight free column without a partner is open. -/
theorem Search.Poised.opens {col : Fin n}
    (poised : search.Poised costs rows inserted order col)
    (vacant : search.matching.partner.get col = none) :
    search.matching.Open costs rows inserted col order := by
  obtain ⟨grown, free, reached, tight, entered⟩ := poised
  have apart : ∀ (row other : Fin n), search.matching.partner.get other = some row →
      other ≠ col := by
    rintro row other holds rfl
    rw [vacant] at holds
    cases holds
  refine ⟨?_, grown.fresh, fun row other _ => grown.sound.tight row other, fun row => ?_,
    fun row first second _ _ => grown.sound.injective row first second,
    List.nodup_cons.mpr ⟨free, grown.nodup⟩, grown.held, reached, tight, grown.wayBack⟩
  · rintro row other (member | rfl)
    · exact grown.sound.feasible row other member
    · exact entered other
  · rw [grown.sound.matched]
    constructor
    · rintro ⟨other, holds⟩
      exact ⟨other, apart row other holds, holds⟩
    · rintro ⟨other, _, holds⟩
      exact ⟨other, holds⟩

section Turns

variable {pending next : Search Rat (Option Rat) n} {standing : Option (Fin n)} {row : Fin n}

/-- A turn chooses a free column with the least gap and moves the prices by this gap. -/
theorem Search.Grown.turn_eq_some
    (grown : ((pending.enter standing).relax costs standing row).Grown costs rows
      inserted order) :
    ∃ col, col ∉ order ∧
      (∀ other, other ∉ order →
        ((pending.enter standing).relax costs standing row).leastGap costs inserted col ≤
          ((pending.enter standing).relax costs standing row).leastGap costs inserted
            other) ∧
      pending.turn costs inserted standing row =
        some (((pending.enter standing).relax costs standing row).move inserted
          (((pending.enter standing).relax costs standing row).leastGap costs inserted col),
          col) := by
  obtain ⟨col, closest, free, least⟩ := grown.closest_eq_some grown.exists_free
  have offer : Pricing.amount
      (((pending.enter standing).relax costs standing row).offer col) =
        ((pending.enter standing).relax costs standing row).leastGap costs inserted col := by
    rw [grown.offer_eq, if_neg free]
    rfl
  refine ⟨col, free, least, ?_⟩
  simp only [Search.turn, closest, offer]

/-- The column that a turn has chosen can join the tree. -/
theorem Search.Grown.turned
    (grown : ((pending.enter standing).relax costs standing row).Grown costs rows
      inserted order) {col : Fin n}
    (turned : pending.turn costs inserted standing row = some (next, col)) :
    next.Poised costs rows inserted order col := by
  obtain ⟨chosen, free, least, turn⟩ := grown.turn_eq_some
  obtain ⟨rfl, rfl⟩ := Prod.mk.inj (Option.some.inj (turned.symm.trans turn))
  exact grown.poised_move free least

/-- The search ends at a column without a partner. -/
theorem Search.Grown.run_succeeds {budget : Nat}
    (grown : ((pending.enter standing).relax costs standing row).Grown costs rows
      inserted order)
    (enough : n ≤ budget + order.length) :
    ∃ found col earlier,
      Search.run costs inserted budget pending standing row = some (found, col) ∧
        found.Open costs rows inserted col earlier := by
  induction budget generalizing pending standing row order with
  | zero =>
      obtain ⟨col, free⟩ := grown.exists_free
      have short := length_lt_of_free grown.nodup free
      omega
  | succ budget induction =>
      obtain ⟨next, col, turn⟩ : ∃ next col,
          pending.turn costs inserted standing row = some (next, col) := by
        obtain ⟨col, _, _, turn⟩ := grown.turn_eq_some
        exact ⟨_, col, turn⟩
      have poised := grown.turned turn
      rw [Search.run_succ turn]
      cases partner : next.matching.partner.get col with
      | none => exact ⟨_, col, order, rfl, poised.opens partner⟩
      | some held =>
          have room : n ≤ budget + (col :: order).length := by
            rw [List.length_cons]
            omega
          exact induction (poised.relax partner) room

end Turns

/-! ## Handing the partners along -/

theorem WayBack.suffix {matching : Matching Rat n} {front rest : List (Fin n)}
    (wayBack : WayBack costs inserted matching (front ++ rest)) :
    WayBack costs inserted matching rest := by
  induction front with
  | nil => exact wayBack
  | cons col front induction => exact induction wayBack.2.2

/-- The matching once a column has changed its partner. -/
def Matching.give (matching : Matching Rat n) (col : Fin n) (partner : Option (Fin n)) :
    Matching Rat n :=
  { matching with partner := matching.partner.set col partner col.isLt }

theorem Matching.partner_give (matching : Matching Rat n) (col other : Fin n)
    (partner : Option (Fin n)) :
    (matching.give col partner).partner.get other =
      if other = col then partner else matching.partner.get other :=
  get_set matching.partner partner col other

section Handing

variable {matching : Matching Rat n} {col : Fin n} {earlier : List (Fin n)}

theorem give_eq_some {row other held : Fin n} :
    (matching.give col (some row)).partner.get other = some held ↔
      (other = col ∧ held = row) ∨
        (other ≠ col ∧ matching.partner.get other = some held) := by
  rw [Matching.partner_give]
  by_cases same : other = col
  · simp [same, eq_comm]
  · simp [same]

theorem WayBack.give (wayBack : WayBack costs inserted matching order) (absent : col ∉ order)
    (partner : Option (Fin n)) :
    WayBack costs inserted (matching.give col partner) order := by
  refine wayBack.congr (fun _ _ => rfl) fun other _ standing reached => ?_
  have sameRow : (matching.give col partner).rowOf inserted standing =
      matching.rowOf inserted standing := by
    cases standing with
    | none => rfl
    | some place =>
        have apart : place ≠ col := fun same => absent (same ▸ reached place rfl)
        rw [Matching.rowOf, Matching.rowOf, Matching.partner_give, if_neg apart]
  rw [sameRow]
  rfl

/-- The last open column takes the inserted row. -/
theorem Matching.Open.close (opened : matching.Open costs rows inserted col earlier)
    (start : matching.via.get col = none) :
    Matching.Sound costs (fun row => rows row ∨ row = inserted)
      (matching.give col (some inserted)) := by
  have tight : matching.gap costs inserted col = 0 := by
    have known := opened.wayBack.2.1
    rw [start] at known
    exact known
  have absent : ∀ other : Fin n, other ≠ col →
      matching.partner.get other ≠ some inserted := by
    intro other apart holds
    exact opened.fresh ((opened.matched inserted).mpr ⟨other, apart, holds⟩)
  refine ⟨opened.feasible, fun row other holds => ?_, fun row => ⟨?_, ?_⟩,
    fun row first second firstHolds secondHolds => ?_⟩
  · rcases give_eq_some.mp holds with ⟨rfl, rfl⟩ | ⟨apart, old⟩
    · exact tight
    · exact opened.tight row other apart old
  · rintro (member | rfl)
    · obtain ⟨other, apart, holds⟩ := (opened.matched row).mp member
      exact ⟨other, give_eq_some.mpr (.inr ⟨apart, holds⟩)⟩
    · exact ⟨col, give_eq_some.mpr (.inl ⟨rfl, rfl⟩)⟩
  · rintro ⟨other, holds⟩
    rcases give_eq_some.mp holds with ⟨_, same⟩ | ⟨apart, old⟩
    · exact .inr same
    · exact .inl ((opened.matched row).mpr ⟨other, apart, old⟩)
  · rcases give_eq_some.mp firstHolds with ⟨rfl, rfl⟩ | ⟨firstApart, firstOld⟩ <;>
      rcases give_eq_some.mp secondHolds with ⟨rfl, same⟩ | ⟨secondApart, secondOld⟩
    · rfl
    · exact absurd secondOld (absent second secondApart)
    · exact absurd (same ▸ firstOld) (absent first firstApart)
    · exact opened.injective row first second firstApart secondApart firstOld secondOld

/-- An open column takes the partner of the column before it, which opens that one. -/
theorem Matching.Open.hand (opened : matching.Open costs rows inserted col earlier)
    {previous : Fin n} (via : matching.via.get col = some previous) :
    ∃ rest, rest.length < earlier.length ∧
      Matching.Open costs rows inserted
        (matching.give col (matching.partner.get previous)) previous rest := by
  obtain ⟨reached, tight, wayBack⟩ := opened.wayBack
  have member : previous ∈ earlier := reached previous via
  obtain ⟨absent, nodup⟩ := List.nodup_cons.mp opened.nodup
  have apart : previous ≠ col := fun same => absent (same ▸ member)
  obtain ⟨row, partner⟩ := Option.ne_none_iff_exists'.mp (opened.held previous member)
  rw [via, Matching.rowOf, partner, Option.getD_some] at tight
  obtain ⟨front, rest, rfl⟩ := List.append_of_mem member
  have outside : col ∉ previous :: rest := fun inside =>
    absent (List.mem_append_right front inside)
  -- The row handed to `col` was held by `previous` alone.
  have owner : ∀ other : Fin n, other ≠ col → matching.partner.get other = some row →
      other = previous :=
    fun other otherApart holds =>
      opened.injective row other previous otherApart apart holds partner
  rw [partner]
  refine ⟨rest, by rw [List.length_append, List.length_cons]; omega, opened.feasible,
    opened.fresh, ?_, fun held => ?_, ?_, nodup.of_append_right, ?_,
    wayBack.suffix.give outside (some row)⟩
  · intro held other otherApart holds
    rcases give_eq_some.mp holds with ⟨rfl, rfl⟩ | ⟨otherOutside, old⟩
    · exact tight
    · exact opened.tight held other otherOutside old
  · rw [opened.matched]
    constructor
    · rintro ⟨other, otherApart, holds⟩
      by_cases same : other = previous
      · have sameRow : held = row := by
          rw [same, partner] at holds
          exact (Option.some.inj holds).symm
        exact ⟨col, apart.symm, give_eq_some.mpr (.inl ⟨rfl, sameRow⟩)⟩
      · exact ⟨other, same, give_eq_some.mpr (.inr ⟨otherApart, holds⟩)⟩
    · rintro ⟨other, otherApart, holds⟩
      rcases give_eq_some.mp holds with ⟨_, rfl⟩ | ⟨otherOutside, old⟩
      · exact ⟨previous, apart, partner⟩
      · exact ⟨other, otherOutside, old⟩
  · intro held first second firstApart secondApart firstHolds secondHolds
    rcases give_eq_some.mp firstHolds with ⟨rfl, rfl⟩ | ⟨firstOutside, firstOld⟩ <;>
      rcases give_eq_some.mp secondHolds with ⟨rfl, same⟩ | ⟨secondOutside, secondOld⟩
    · rfl
    · exact absurd (owner second secondOutside secondOld) secondApart
    · exact absurd (owner first firstOutside (same ▸ firstOld)) firstApart
    · exact opened.injective held first second firstOutside secondOutside firstOld secondOld
  · intro other otherMember
    have otherOutside : other ≠ col := by
      rintro rfl
      exact outside (List.mem_cons_of_mem _ otherMember)
    rw [Matching.partner_give, if_neg otherOutside]
    exact opened.held other
      (List.mem_append_right front (List.mem_cons_of_mem _ otherMember))

end Handing

theorem Matching.augment_succ (matching : Matching Rat n) (budget : Nat)
    (inserted col : Fin n) :
    matching.augment inserted (budget + 1) col =
      match matching.via.get col with
      | none => matching.give col (some inserted)
      | some previous =>
          (matching.give col (matching.partner.get previous)).augment inserted budget
            previous := rfl

/-- After the augmentation the matching is sound for one more row. -/
theorem Matching.Open.augment {budget : Nat} {matching : Matching Rat n} {col : Fin n}
    {earlier : List (Fin n)} (opened : matching.Open costs rows inserted col earlier)
    (enough : earlier.length < budget) :
    (matching.augment inserted budget col).Sound costs
      (fun row => rows row ∨ row = inserted) := by
  induction budget generalizing matching col earlier with
  | zero => exact absurd enough (Nat.not_lt_zero _)
  | succ budget induction =>
      rw [Matching.augment_succ]
      cases via : matching.via.get col with
      | none => exact opened.close via
      | some previous =>
          obtain ⟨rest, shorter, handed⟩ := opened.hand via
          exact induction handed (by omega)

/-! ## All rows -/

/-- Inserting a row keeps the matching sound. -/
theorem Matching.Sound.insert {matching : Matching Rat n}
    (sound : matching.Sound costs rows) (fresh : ¬ rows inserted) :
    (matching.insert costs inserted).Sound costs
      (fun row => rows row ∨ row = inserted) := by
  have grown : (((Search.start matching).enter none).relax costs none inserted).Grown
      costs rows inserted [] := grown_relax_start sound fresh
  have enough : n ≤ (2 * n + 2) + ([] : List (Fin n)).length := by omega
  obtain ⟨found, col, earlier, result, opened⟩ := grown.run_succeeds enough
  have short := length_lt_of_free (List.nodup_cons.mp opened.nodup).2
    (List.nodup_cons.mp opened.nodup).1
  unfold Matching.insert
  rw [result]
  exact opened.augment (by omega)

theorem Matching.Sound.congr {matching : Matching Rat n} {others : Fin n → Prop}
    (sound : matching.Sound costs rows) (same : ∀ row, rows row ↔ others row) :
    matching.Sound costs others := by
  have equal : rows = others := funext fun row => propext (same row)
  rwa [equal] at sound

theorem sound_empty : (Matching.empty : Matching Rat n).Sound costs (fun _ => False) := by
  refine ⟨by simp, fun row col holds => ?_, fun row => ?_, fun row first second holds => ?_⟩
  · simp [Matching.empty] at holds
  · simp [Matching.empty]
  · simp [Matching.empty] at holds

/-- When all rows are inserted, the matching is sound for all of them. -/
theorem cheapestMatching_sound (costs : Matrix Rat n) :
    (cheapestMatching costs).Sound costs (fun _ => True) := by
  have inserted : (cheapestMatching costs).Sound costs (· ∈ List.finRange n) := by
    unfold cheapestMatching
    apply foldl_invariant fun (seen : List (Fin n)) (matching : Matching Rat n) =>
      matching.Sound costs (· ∈ seen)
    · exact sound_empty.congr (by simp)
    · intro seen row matching opening sound
      have nodup : (seen ++ [row]).Nodup := (List.nodup_finRange n).sublist opening.sublist
      have fresh : row ∉ seen := fun member =>
        List.disjoint_of_nodup_append nodup member (List.mem_singleton_self row)
      exact (sound.insert fresh).congr (by simp)
  exact inserted.congr (by simp)

end OptimalPlans.Assignment
