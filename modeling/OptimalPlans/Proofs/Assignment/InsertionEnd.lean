import OptimalPlans.Proofs.Assignment.PriceBalance

/-!
# How an insertion ends

The search of a row goes on as long as the column it chooses has a partner, and the way
back goes on until it meets the inserted row.  Every turn uses a new column, and every
used column but the last one is matched, so there is at most one turn more than there are
rows before the inserted one.  The first turn reaches every column, so the pointers that
earlier searches left behind are overwritten before they are read, and the way back runs
through columns of this search only, each older than the one before.
-/

namespace OptimalPlans.Assignment

variable {n : Nat} {costs : Matrix Rat n} {rows : Fin n → Prop} {inserted : Fin n}
  {matching : Matching Rat n}

/-! ## The turns -/

/-- Where the search of a row stands after it has chosen some columns, newest first, all
of which have a partner: on the newest column and on the row of its partner. -/
inductive StandsAt (costs : Matrix Rat n) (matching : Matching Rat n) (inserted : Fin n) :
    List (Fin n) → Search Rat (Option Rat) n → Option (Fin n) → Fin n → Prop
  | start : StandsAt costs matching inserted [] (Search.start matching) none inserted
  | turn {chosen : List (Fin n)} {search next : Search Rat (Option Rat) n}
      {standing : Option (Fin n)} {row col partner : Fin n} :
      StandsAt costs matching inserted chosen search standing row →
      search.turn costs inserted standing row = some (next, col) →
      next.matching.partner.get col = some partner →
      StandsAt costs matching inserted (col :: chosen) next (some col) partner

section Turns

variable {chosen : List (Fin n)} {search : Search Rat (Option Rat) n}
  {standing : Option (Fin n)} {row : Fin n}

/-- Wherever a search stands, the columns it has chosen form a tree of tight pairs. -/
theorem StandsAt.grown (stands : StandsAt costs matching inserted chosen search standing row)
    (sound : matching.Sound costs rows) (fresh : ¬ rows inserted) :
    ((search.enter standing).relax costs standing row).Grown costs rows inserted chosen := by
  induction stands with
  | start => exact grown_relax_start sound fresh
  | turn stands turned partner grown => exact (grown.turned turned).relax partner

/-- A tree has no more columns than there are rows with a partner. -/
theorem Search.Grown.length_le {count : Nat}
    (grown : search.Grown costs (fun row => row.val < count) inserted chosen) :
    chosen.length ≤ count := by
  let stands : Fin n → Nat := fun col => (search.matching.rowOf inserted (some col)).val
  have held : ∀ col ∈ chosen, ∃ row : Fin n,
      search.matching.partner.get col = some row ∧ stands col = row.val := by
    intro col member
    obtain ⟨row, partner⟩ := Option.ne_none_iff_exists'.mp (grown.held col member)
    exact ⟨row, partner, by simp [stands, Matching.rowOf, partner]⟩
  have nodup : (chosen.map stands).Nodup := by
    refine (List.nodup_map_iff_inj_on grown.nodup).mpr ?_
    intro first firstMember second secondMember same
    obtain ⟨row, partner, rowVal⟩ := held first firstMember
    obtain ⟨other, otherPartner, otherVal⟩ := held second secondMember
    obtain rfl : row = other := Fin.ext (rowVal.symm.trans (same.trans otherVal))
    exact grown.sound.injective row first second partner otherPartner
  have below : ∀ index ∈ chosen.map stands, index < count := by
    intro index member
    obtain ⟨col, colMember, rfl⟩ := List.mem_map.mp member
    obtain ⟨row, partner, rowVal⟩ := held col colMember
    rw [rowVal]
    exact (grown.sound.matched row).mpr ⟨col, partner⟩
  simpa using length_le_of_nodup nodup below

/-- Turns that have been made need no budget any more. -/
theorem StandsAt.run_eq (stands : StandsAt costs matching inserted chosen search standing row)
    (budget : Nat) :
    Search.run costs inserted (chosen.length + budget) (Search.start matching) none inserted =
      Search.run costs inserted budget search standing row := by
  induction stands generalizing budget with
  | start => rw [List.length_nil, Nat.zero_add]
  | turn stands turned partner induction =>
      rw [List.length_cons, Nat.add_assoc, Nat.add_comm 1, induction, Search.run_succ turned,
        partner]

/-- A search that has chosen a column without a partner ends with it. -/
theorem StandsAt.run_eq_some
    (stands : StandsAt costs matching inserted chosen search standing row)
    {next : Search Rat (Option Rat) n} {last : Fin n}
    (turned : search.turn costs inserted standing row = some (next, last))
    (vacant : next.matching.partner.get last = none) {budget : Nat}
    (enough : chosen.length < budget) :
    Search.run costs inserted budget (Search.start matching) none inserted =
      some (next.matching, last) := by
  obtain ⟨spare, rfl⟩ := Nat.exists_eq_add_of_lt enough
  rw [Nat.add_assoc, stands.run_eq, Search.run_succ turned, vacant]

/-- A run that ends does so with a turn that chooses a column without a partner. -/
theorem StandsAt.last_turn {budget : Nat} {found : Matching Rat n} {last : Fin n}
    (stands : StandsAt costs matching inserted chosen search standing row)
    (result : Search.run costs inserted budget search standing row = some (found, last)) :
    ∃ chosen search standing row next,
      StandsAt costs matching inserted chosen search standing row ∧
        search.turn costs inserted standing row = some (next, last) ∧
        next.matching = found ∧ found.partner.get last = none := by
  induction budget generalizing chosen search standing row with
  | zero => cases result
  | succ budget induction =>
      cases turned : search.turn costs inserted standing row with
      | none => simp [Search.run, turned] at result
      | some outcome =>
          obtain ⟨next, col⟩ := outcome
          rw [Search.run_succ turned] at result
          cases partner : next.matching.partner.get col with
          | none =>
              rw [partner] at result
              obtain ⟨rfl, rfl⟩ := Prod.mk.inj (Option.some.inj result)
              exact ⟨chosen, search, standing, row, next, stands, turned, rfl, partner⟩
          | some held =>
              rw [partner] at result
              exact induction (stands.turn turned partner) result

end Turns

/-! ## Pointers of earlier searches -/

/-- The first turn writes the pointer of every column. -/
theorem relax_start_overwrites (matching : Matching Rat n)
    (stale : Vector (Option (Fin n)) n) (row : Fin n) :
    (Search.start { matching with via := stale } : Search Rat (Option Rat) n).relax costs
        none row =
      (Search.start matching).relax costs none row := by
  simp only [Search.relax, improves_start, if_true]
  rfl

/-- A search depends on no pointer that an earlier one has left. -/
theorem run_start_overwrites (matching : Matching Rat n)
    (stale : Vector (Option (Fin n)) n) (budget : Nat) :
    Search.run costs inserted budget (Search.start { matching with via := stale }) none
        inserted =
      Search.run costs inserted budget (Search.start matching) none inserted := by
  cases budget with
  | zero => rfl
  | succ budget =>
      let start : Search Rat (Option Rat) n := Search.start { matching with via := stale }
      have turn : start.turn costs inserted none inserted =
          (Search.start matching).turn costs inserted none inserted := by
        simp only [Search.turn, Search.enter, start, relax_start_overwrites]
      rw [Search.run, Search.run, turn]

/-! ## The way back -/

/-- The columns on the way back from a column to the inserted row. -/
inductive WalksBack (via : Vector (Option (Fin n)) n) : Fin n → List (Fin n) → Prop
  | arrive {col : Fin n} : via.get col = none → WalksBack via col [col]
  | step {col previous : Fin n} {walk : List (Fin n)} :
      via.get col = some previous → WalksBack via previous walk →
      WalksBack via col (col :: walk)

/-- A column of the tree has a way back, through ever older columns. -/
theorem WayBack.exists_walk {col : Fin n} {earlier : List (Fin n)}
    (wayBack : WayBack costs inserted matching (col :: earlier)) :
    ∃ walk, WalksBack matching.via col walk ∧ walk.Sublist (col :: earlier) := by
  induction size : earlier.length using Nat.strong_induction_on generalizing col earlier with
  | _ size induction =>
      subst size
      obtain ⟨reached, _, rest⟩ := wayBack
      cases via : matching.via.get col with
      | none => exact ⟨[col], .arrive via, (List.nil_sublist earlier).cons_cons col⟩
      | some previous =>
          obtain ⟨front, older, rfl⟩ := List.append_of_mem (reached previous via)
          have shorter : older.length < (front ++ previous :: older).length := by
            rw [List.length_append, List.length_cons]
            omega
          obtain ⟨walk, walks, sublist⟩ := induction _ shorter rest.suffix rfl
          have within : walk.Sublist (front ++ previous :: older) :=
            sublist.trans (List.sublist_append_right front _)
          exact ⟨col :: walk, .step via walks, within.cons_cons col⟩

/-- A budget for the columns on the way back is as good as any larger one. -/
theorem WalksBack.augment_eq {col : Fin n} {walk : List (Fin n)}
    (walks : WalksBack matching.via col walk) {budget other : Nat}
    (enough : walk.length ≤ budget) (otherEnough : walk.length ≤ other) :
    matching.augment inserted budget col = matching.augment inserted other col := by
  generalize kept : matching.via = via at walks
  induction walks generalizing matching budget other with
  | arrive start =>
      obtain ⟨budget, rfl⟩ := Nat.exists_eq_add_one.mpr enough
      obtain ⟨other, rfl⟩ := Nat.exists_eq_add_one.mpr otherEnough
      rw [Matching.augment_succ, Matching.augment_succ, kept, start]
  | step previous walks induction =>
      obtain ⟨budget, rfl⟩ := Nat.exists_eq_add_one.mpr (Nat.zero_lt_of_lt enough)
      obtain ⟨other, rfl⟩ := Nat.exists_eq_add_one.mpr (Nat.zero_lt_of_lt otherEnough)
      rw [Matching.augment_succ, Matching.augment_succ, kept, previous]
      exact induction (Nat.le_of_succ_le_succ enough) (Nat.le_of_succ_le_succ otherEnough) kept

/-! ## Insertions -/

theorem matchingAfter_succ (costs : Matrix Rat n) (row : Fin n) :
    matchingAfter costs (row.val + 1) = (matchingAfter costs row.val).insert costs row := by
  have next : (List.finRange n).take (row.val + 1) =
      (List.finRange n).take row.val ++ [row] := by
    rw [List.take_add_one]
    simp
  rw [matchingAfter, next, List.foldl_append]
  rfl

/-- Every turn of the search of a row chooses a column that is not used yet, and no more
than as many turns are made as rows are in with the inserted one.  The last turn chooses a
column without a partner.  From there the way back meets distinct columns of this search,
no more than there were turns, and ends at the inserted row.  Budgets for so many turns
and steps are never used up, and no pointer of an earlier search has a part in it. -/
theorem insertion_ends (costs : Matrix Rat n) (inserted : Fin n) :
    (∀ chosen search standing row,
      StandsAt costs (matchingAfter costs inserted.val) inserted chosen search standing row →
        ∃ next col, search.turn costs inserted standing row = some (next, col) ∧
          (search.enter standing).used.get col = false ∧
          (col :: chosen).Nodup ∧ (col :: chosen).length ≤ inserted.val + 1) ∧
    ∃ chosen search standing row next last walk,
      StandsAt costs (matchingAfter costs inserted.val) inserted chosen search standing row ∧
      search.turn costs inserted standing row = some (next, last) ∧
      next.matching.partner.get last = none ∧
      WalksBack next.matching.via last walk ∧ walk.Sublist (last :: chosen) ∧
      walk.Nodup ∧ walk.length ≤ inserted.val + 1 ∧
      (∀ stale budget, inserted.val + 1 ≤ budget →
        Search.run costs inserted budget
            (Search.start { matchingAfter costs inserted.val with via := stale }) none
            inserted =
          some (next.matching, last)) ∧
      ∀ budget, inserted.val + 1 ≤ budget →
        next.matching.augment inserted budget last =
          matchingAfter costs (inserted.val + 1) := by
  have sound := (matchingAfter_sound costs inserted.val).1
  have fresh : ¬ inserted.val < inserted.val := lt_irrefl _
  refine ⟨fun chosen search standing row stands => ?_, ?_⟩
  · have grown := stands.grown sound fresh
    obtain ⟨col, free, _, turn⟩ := grown.turn_eq_some
    have idle : (search.enter standing).used.get col = false := by
      rw [← Bool.not_eq_true]
      exact fun used => free ((grown.used col).mp used)
    exact ⟨_, col, turn, idle, List.nodup_cons.mpr ⟨free, grown.nodup⟩,
      Nat.succ_le_succ grown.length_le⟩
  · obtain ⟨_, last, _, result, _⟩ :=
      (StandsAt.start.grown sound fresh).run_succeeds (Nat.le_add_right n 0)
    obtain ⟨chosen, search, standing, row, next, stands, turned, rfl, vacant⟩ :=
      StandsAt.start.last_turn result
    have grown := stands.grown sound fresh
    have opened := (grown.turned turned).opens vacant
    obtain ⟨walk, walks, sublist⟩ := opened.wayBack.exists_walk
    have turns : chosen.length ≤ inserted.val := grown.length_le
    have short : walk.length ≤ inserted.val + 1 :=
      sublist.length_le.trans (Nat.succ_le_succ turns)
    refine ⟨chosen, search, standing, row, next, last, walk, stands, turned, vacant, walks,
      sublist, opened.nodup.sublist sublist, short, fun stale budget enough => ?_,
      fun budget enough => ?_⟩
    · rw [run_start_overwrites]
      exact stands.run_eq_some turned vacant (by omega)
    · rw [matchingAfter_succ, Matching.insert,
        stands.run_eq_some turned vacant (by omega)]
      exact walks.augment_eq (short.trans enough) (by omega)

end OptimalPlans.Assignment
