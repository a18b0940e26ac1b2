import OptimalPlans.Proofs.Assignment.SearchTree
import OptimalPlans.Proofs.Exactness

/-!
# Moving the prices

The column chosen by the search is a free one with the least slack.  Moving the prices by
that slack, up for the rows of the tree and down for its columns, keeps the matching
sound and the tree tight, makes the chosen column tight, and from the first move on no
gap of the inserted row is negative.
-/

namespace OptimalPlans.Assignment

variable {n : Nat} {costs : Matrix Rat n} {rows : Fin n → Prop} {inserted : Fin n}
  {search : Search Rat (Option Rat) n} {order : List (Fin n)}

/-! ## The closest column -/

theorem leads_iff {left right : Option Rat} :
    Pricing.leads Rat left right = true ↔
      ∃ value, left = some value ∧ ∀ other, right = some other → value < other := by
  cases left with
  | none => simp [Pricing.leads]
  | some value => cases right <;> simp [Pricing.leads]

/-- The best column of some seen ones. -/
def ClosestSeen (search : Search Rat (Option Rat) n) (seen : List (Fin n)) :
    Option (Fin n) → Prop
  | none => seen = []
  | some chosen => ∀ col ∈ seen,
      ¬ Pricing.leads Rat (search.offer col) (search.offer chosen) = true

theorem ClosestSeen.step (seen : List (Fin n)) (best : Option (Fin n)) (col : Fin n) :
    ClosestSeen search seen best → ClosestSeen search (seen ++ [col])
      (match best with
      | none => some col
      | some chosen =>
          if Pricing.leads Rat (search.offer col) (search.offer chosen) then some col
          else best) := by
  intro known
  have irreflexive : ¬ Pricing.leads Rat (search.offer col) (search.offer col) = true := by
    rw [leads_iff]
    rintro ⟨value, same, below⟩
    exact lt_irrefl value (below value same)
  cases best with
  | none =>
      obtain rfl : seen = [] := known
      intro other member
      obtain rfl : other = col := by simpa using member
      exact irreflexive
  | some chosen =>
      by_cases leads : Pricing.leads Rat (search.offer col) (search.offer chosen) = true
      · simp only [if_pos leads]
        intro other member
        rcases List.mem_append.mp member with old | new
        · intro beats
          apply known other old
          obtain ⟨value, same, below⟩ := leads_iff.mp beats
          obtain ⟨middle, middleSame, middleBelow⟩ := leads_iff.mp leads
          refine leads_iff.mpr ⟨value, same, fun last lastSame => ?_⟩
          exact (below middle middleSame).trans (middleBelow last lastSame)
        · obtain rfl := List.mem_singleton.mp new
          exact irreflexive
      · simp only [if_neg leads]
        intro other member
        rcases List.mem_append.mp member with old | new
        · exact known other old
        · obtain rfl := List.mem_singleton.mp new
          exact leads

theorem closestSeen_closest (search : Search Rat (Option Rat) n) :
    ClosestSeen search (List.finRange n) search.closest := by
  unfold Search.closest
  apply foldl_invariant (ClosestSeen search)
  · rfl
  · exact fun seen col best _ known => ClosestSeen.step seen best col known

/-- The gap between a free column and the place from which it was reached. -/
def Search.leastGap (search : Search Rat (Option Rat) n) (costs : Matrix Rat n)
    (inserted col : Fin n) : Rat :=
  search.matching.gap costs
    (search.matching.rowOf inserted (search.matching.via.get col)) col

theorem Search.offer_eq (search : Search Rat (Option Rat) n) (col : Fin n) :
    search.offer col = if search.used.get col then none else search.slack.get col := rfl

theorem Search.Grown.offer_eq (grown : search.Grown costs rows inserted order)
    (col : Fin n) :
    search.offer col =
      if col ∈ order then none else some (search.leastGap costs inserted col) := by
  by_cases member : col ∈ order
  · have used := (grown.used col).mpr member
    rw [search.offer_eq, used, if_pos member, if_pos rfl]
  · have idle : search.used.get col = false := by
      rw [← Bool.not_eq_true, grown.used]
      exact member
    rw [search.offer_eq, idle, if_neg member]
    exact (grown.slack col member).attained

/-- While a column is free the search chooses one with the least gap. -/
theorem Search.Grown.closest_eq_some (grown : search.Grown costs rows inserted order)
    (free : ∃ col, col ∉ order) :
    ∃ col, search.closest = some col ∧ col ∉ order ∧
      ∀ other, other ∉ order →
        search.leastGap costs inserted col ≤ search.leastGap costs inserted other := by
  obtain ⟨someFree, someAbsent⟩ := free
  have best := closestSeen_closest search
  cases chosen : search.closest with
  | none =>
      rw [chosen] at best
      have listed : someFree ∈ List.finRange n := List.mem_finRange someFree
      rw [show List.finRange n = [] from best] at listed
      cases listed
  | some col =>
      rw [chosen] at best
      have beaten : ∀ other, other ∉ order → ∃ held, search.offer col = some held ∧
          held ≤ search.leastGap costs inserted other := by
        intro other absent
        have behind := best other (List.mem_finRange other)
        rw [leads_iff, grown.offer_eq other, if_neg absent] at behind
        by_contra beats
        apply behind
        refine ⟨_, rfl, fun held same => ?_⟩
        by_contra more
        exact beats ⟨held, same, not_lt.mp more⟩
      have absent : col ∉ order := by
        intro member
        obtain ⟨held, same, _⟩ := beaten someFree someAbsent
        rw [grown.offer_eq, if_pos member] at same
        cases same
      refine ⟨col, rfl, absent, fun other otherAbsent => ?_⟩
      obtain ⟨held, same, below⟩ := beaten other otherAbsent
      rw [grown.offer_eq, if_neg absent] at same
      rw [Option.some.inj same]
      exact below

/-! ## The move -/

theorem Search.slack_move (amount : Rat) (col : Fin n) :
    (search.move inserted amount).slack.get col =
      if search.used.get col then search.slack.get col
      else (search.slack.get col).map (· - amount) := by
  exact Vector.get_ofFn _ col

theorem Search.rowPrice_move (amount : Rat) (row : Fin n) :
    (search.move inserted amount).matching.rowPrice.get row =
      if search.reaches inserted row then search.matching.rowPrice.get row + amount
      else search.matching.rowPrice.get row := by
  exact Vector.get_ofFn _ row

theorem Search.colPrice_move (amount : Rat) (col : Fin n) :
    (search.move inserted amount).matching.colPrice.get col =
      if search.used.get col then search.matching.colPrice.get col - amount
      else search.matching.colPrice.get col := by
  exact Vector.get_ofFn _ col

theorem Search.gap_move (amount : Rat) (row col : Fin n) :
    (search.move inserted amount).matching.gap costs row col =
      search.matching.gap costs row col -
        (if search.reaches inserted row then amount else 0) +
        (if search.used.get col then amount else 0) := by
  rw [Matching.gap_eq, Matching.gap_eq, Search.rowPrice_move, Search.colPrice_move]
  split <;> split <;> ring

theorem Search.reaches_eq (search : Search Rat (Option Rat) n) (inserted row : Fin n) :
    search.reaches inserted row = (row == inserted || (List.finRange n).any fun col =>
      search.used.get col && search.matching.partner.get col == some row) := rfl

/-- The rows reached are those that stand on a place of the tree. -/
theorem Search.Grown.reaches_iff (grown : search.Grown costs rows inserted order)
    {row : Fin n} :
    search.reaches inserted row = true ↔
      ∃ standing, Reached order standing ∧
        search.matching.rowOf inserted standing = row := by
  simp only [Search.reaches_eq, Bool.or_eq_true, beq_iff_eq, List.any_eq_true,
    List.mem_finRange, true_and, Bool.and_eq_true, grown.used]
  constructor
  · rintro (rfl | ⟨col, member, partner⟩)
    · exact ⟨none, (fun _ same => nomatch same), rfl⟩
    · refine ⟨some col, ?_, by rw [Matching.rowOf, partner, Option.getD_some]⟩
      rintro other same
      rwa [← Option.some.inj same]
  · rintro ⟨standing, reached, rfl⟩
    cases standing with
    | none => exact .inl rfl
    | some col =>
        have member := reached col rfl
        obtain ⟨row, partner⟩ := Option.ne_none_iff_exists'.mp (grown.held col member)
        exact .inr ⟨col, member, by rw [Matching.rowOf, partner, Option.getD_some]⟩

/-- A matched row is reached exactly when its column is in the tree. -/
theorem Search.Grown.reaches_partner (grown : search.Grown costs rows inserted order)
    {row col : Fin n} (partner : search.matching.partner.get col = some row) :
    search.reaches inserted row = search.used.get col := by
  rw [Bool.eq_iff_iff, grown.reaches_iff, grown.used]
  constructor
  · rintro ⟨standing, reached, stands⟩
    cases standing with
    | none =>
        obtain rfl : inserted = row := stands
        exact absurd ((grown.sound.matched inserted).mpr ⟨col, partner⟩) grown.fresh
    | some other =>
        have member := reached other rfl
        obtain ⟨held, holds⟩ := Option.ne_none_iff_exists'.mp (grown.held other member)
        have same : held = row := by
          rw [← stands, Matching.rowOf, holds, Option.getD_some]
        rw [same] at holds
        rwa [grown.sound.injective row col other partner holds]
  · intro member
    refine ⟨some col, ?_, by rw [Matching.rowOf, partner, Option.getD_some]⟩
    rintro other same
    rwa [← Option.some.inj same]

/-- A tree row and a free column come closer by the amount of the move. -/
theorem Search.Grown.gap_move_free (grown : search.Grown costs rows inserted order)
    (amount : Rat) {standing : Option (Fin n)} (reached : Reached order standing)
    {col : Fin n} (free : col ∉ order) :
    (search.move inserted amount).matching.gap costs
        (search.matching.rowOf inserted standing) col =
      search.matching.gap costs (search.matching.rowOf inserted standing) col - amount := by
  have reaches := grown.reaches_iff.mpr ⟨standing, reached, rfl⟩
  have idle : search.used.get col = false := by
    rw [← Bool.not_eq_true, grown.used]
    exact free
  rw [Search.gap_move, reaches, idle]
  simp

/-- A tree row and a tree column keep their gap. -/
theorem Search.Grown.gap_move_used (grown : search.Grown costs rows inserted order)
    (amount : Rat) {standing : Option (Fin n)} (reached : Reached order standing)
    {col : Fin n} (member : col ∈ order) :
    (search.move inserted amount).matching.gap costs
        (search.matching.rowOf inserted standing) col =
      search.matching.gap costs (search.matching.rowOf inserted standing) col := by
  have reaches := grown.reaches_iff.mpr ⟨standing, reached, rfl⟩
  rw [Search.gap_move, reaches, (grown.used col).mpr member]
  simp

/-- Once the tree has a column, no place of it is below a gap of zero. -/
theorem Search.Grown.leastGap_nonneg (grown : search.Grown costs rows inserted order)
    (grew : order ≠ []) {col : Fin n} (free : col ∉ order) :
    0 ≤ search.leastGap costs inserted col := by
  have reached := (grown.slack col free).reached
  unfold Search.leastGap
  cases via : search.matching.via.get col with
  | none => exact grown.entered grew col
  | some previous =>
      have member := reached previous via
      obtain ⟨row, partner⟩ := Option.ne_none_iff_exists'.mp (grown.held previous member)
      rw [Matching.rowOf, partner, Option.getD_some]
      exact grown.sound.feasible row col ((grown.sound.matched row).mpr ⟨previous, partner⟩)

/-- The move makes the chosen column tight. -/
theorem Search.Grown.tight_move (grown : search.Grown costs rows inserted order)
    {chosen : Fin n} (free : chosen ∉ order) :
    (search.move inserted (search.leastGap costs inserted chosen)).matching.gap costs
      (search.matching.rowOf inserted (search.matching.via.get chosen)) chosen = 0 := by
  rw [grown.gap_move_free _ (grown.slack chosen free).reached free]
  exact sub_self _

section Chosen

variable {chosen : Fin n} (grown : search.Grown costs rows inserted order)
  (free : chosen ∉ order)
  (least : ∀ other, other ∉ order →
    search.leastGap costs inserted chosen ≤ search.leastGap costs inserted other)

include grown free least

/-- Moving by the least slack turns no gap negative. -/
theorem Search.Grown.gap_move_nonneg {row col : Fin n}
    (before : order ≠ [] ∨ search.reaches inserted row = false →
      0 ≤ search.matching.gap costs row col) :
    0 ≤ (search.move inserted (search.leastGap costs inserted chosen)).matching.gap
      costs row col := by
  cases reaches : search.reaches inserted row with
  | true =>
      obtain ⟨standing, reached, rfl⟩ := grown.reaches_iff.mp reaches
      by_cases member : col ∈ order
      · rw [grown.gap_move_used _ reached member]
        exact before (.inl (List.ne_nil_of_mem member))
      · rw [grown.gap_move_free _ reached member, sub_nonneg]
        exact (least col member).trans ((grown.slack col member).least standing reached)
  | false =>
      have nonneg := before (.inr reaches)
      rw [Search.gap_move, reaches]
      cases used : search.used.get col with
      | true =>
          have grew : order ≠ [] := List.ne_nil_of_mem ((grown.used col).mp used)
          have amount := grown.leastGap_nonneg grew free
          simp only [Bool.false_eq_true, if_false, if_true]
          linarith
      | false =>
          simpa using nonneg

theorem Search.Grown.sound_move :
    (search.move inserted
      (search.leastGap costs inserted chosen)).matching.Sound costs rows := by
  refine ⟨fun row col member => ?_, fun row col partner => ?_, grown.sound.matched,
    grown.sound.injective⟩
  · exact grown.gap_move_nonneg free least fun _ => grown.sound.feasible row col member
  · rw [Search.gap_move, grown.reaches_partner partner, grown.sound.tight row col partner]
    ring

theorem Search.Grown.entered_move (col : Fin n) :
    0 ≤ (search.move inserted (search.leastGap costs inserted chosen)).matching.gap
      costs inserted col := by
  apply grown.gap_move_nonneg free least
  rintro (grew | outside)
  · exact grown.entered grew col
  · have reaches : search.reaches inserted inserted = true := by simp [Search.reaches]
    rw [reaches] at outside
    cases outside

/-- The tree stands after the move. -/
theorem Search.Grown.move :
    (search.move inserted (search.leastGap costs inserted chosen)).Grown costs rows
      inserted order := by
  refine ⟨grown.sound_move free least, grown.fresh, grown.used, grown.nodup, grown.held,
    ?_, fun col outside => ?_, fun _ => grown.entered_move free least⟩
  · exact grown.wayBack.congr (fun _ _ => rfl)
      fun col member standing reached => grown.gap_move_used _ reached member
  · obtain ⟨reached, attained, below⟩ := grown.slack col outside
    have idle : search.used.get col = false := by
      rw [← Bool.not_eq_true, grown.used]
      exact outside
    have closer : ∀ standing, Reached order standing → _ = _ :=
      fun standing reached =>
        grown.gap_move_free (search.leastGap costs inserted chosen) reached outside
    refine ⟨reached, ?_, fun standing standingReached => ?_⟩
    · rw [Search.slack_move, idle, attained]
      exact congrArg some (closer _ reached).symm
    · refine (closer _ reached).le.trans (le_trans ?_ (closer _ standingReached).ge)
      exact sub_le_sub_right (below standing standingReached) _

/-- After the move the chosen column can join the tree. -/
theorem Search.Grown.poised_move :
    (search.move inserted (search.leastGap costs inserted chosen)).Poised costs rows
      inserted order chosen :=
  ⟨grown.move free least, free, (grown.slack chosen free).reached, grown.tight_move free,
    grown.entered_move free least⟩

end Chosen

end OptimalPlans.Assignment
