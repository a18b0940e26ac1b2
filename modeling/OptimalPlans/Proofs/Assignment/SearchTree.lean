import Mathlib
import OptimalPlans.Assignment.Matching

/-!
# The search tree of an inserted row

With exact costs the search grows a tree of tight pairs from the inserted row.  Its
columns are the used ones, newest first, and each of them was reached from the inserted
row or from the partner of an older one.  The slack of a free column is the least gap to
a row of the tree, so moving the prices by the least slack keeps every gap non-negative
and makes the next column tight.
-/

namespace OptimalPlans.Assignment

variable {n : Nat}

theorem get_set {α : Type} (values : Vector α n) (value : α) (index other : Fin n) :
    (values.set index value index.isLt).get other =
      if other = index then value else values.get other := by
  have set : (values.set index value index.isLt).get other = _ :=
    Vector.getElem_set index.isLt other.isLt
  rw [set]
  by_cases same : other = index
  · simp [same]
  · have apart : index.val ≠ other.val := fun equal => same (Fin.ext equal.symm)
    rw [if_neg apart, if_neg same]
    rfl

/-! ## The tree -/

/-- Prices of the rows that are in, and partners that pay exactly what they cost. -/
structure Matching.Sound (costs : Matrix Rat n) (rows : Fin n → Prop)
    (matching : Matching Rat n) : Prop where
  feasible : ∀ row col, rows row → 0 ≤ matching.gap costs row col
  tight : ∀ row col, matching.partner.get col = some row → matching.gap costs row col = 0
  matched : ∀ row, rows row ↔ ∃ col : Fin n, matching.partner.get col = some row
  injective : ∀ (row first second : Fin n), matching.partner.get first = some row →
    matching.partner.get second = some row → first = second

/-- The row that stands on a column; the inserted one stands on none. -/
def Matching.rowOf (matching : Matching Rat n) (inserted : Fin n) :
    Option (Fin n) → Fin n
  | none => inserted
  | some col => (matching.partner.get col).getD inserted

/-- A place of the tree: the inserted row or a used column. -/
def Reached (order : List (Fin n)) (standing : Option (Fin n)) : Prop :=
  ∀ col, standing = some col → col ∈ order

theorem Reached.mono {order later : List (Fin n)} {standing : Option (Fin n)}
    (reached : Reached order standing) (subset : order ⊆ later) : Reached later standing :=
  fun col same => subset (reached col same)

/-- Every column is tight with the place of the tree from which it was reached. -/
def WayBack (costs : Matrix Rat n) (inserted : Fin n) (matching : Matching Rat n) :
    List (Fin n) → Prop
  | [] => True
  | col :: earlier => Reached earlier (matching.via.get col) ∧
      matching.gap costs (matching.rowOf inserted (matching.via.get col)) col = 0 ∧
      WayBack costs inserted matching earlier

/-- The slack of a free column is the least gap to a row of the tree. -/
structure LeastGap (costs : Matrix Rat n) (inserted : Fin n) (matching : Matching Rat n)
    (order : List (Fin n)) (col : Fin n) (slack : Option Rat) : Prop where
  reached : Reached order (matching.via.get col)
  attained :
    slack = some (matching.gap costs (matching.rowOf inserted (matching.via.get col)) col)
  least : ∀ standing, Reached order standing →
    matching.gap costs (matching.rowOf inserted (matching.via.get col)) col ≤
      matching.gap costs (matching.rowOf inserted standing) col

/-- A search whose used columns form a tree of tight pairs. -/
structure Search.Grown (costs : Matrix Rat n) (rows : Fin n → Prop) (inserted : Fin n)
    (order : List (Fin n)) (search : Search Rat (Option Rat) n) : Prop where
  sound : search.matching.Sound costs rows
  fresh : ¬ rows inserted
  used : ∀ col, search.used.get col = true ↔ col ∈ order
  nodup : order.Nodup
  held : ∀ col ∈ order, search.matching.partner.get col ≠ none
  wayBack : WayBack costs inserted search.matching order
  slack : ∀ col, col ∉ order →
    LeastGap costs inserted search.matching order col (search.slack.get col)
  entered : order ≠ [] → ∀ col, 0 ≤ search.matching.gap costs inserted col

/-! ## Relaxing -/

theorem Matching.gap_eq (matching : Matching Rat n) (costs : Matrix Rat n)
    (row col : Fin n) :
    matching.gap costs row col =
      (costs.get row).get col - matching.rowPrice.get row - matching.colPrice.get col := rfl

theorem Search.improves_eq (search : Search Rat (Option Rat) n) (costs : Matrix Rat n)
    (row col : Fin n) :
    search.improves costs row col =
      (!search.used.get col &&
        Pricing.closer Rat (some (search.matching.gap costs row col))
          (search.slack.get col)) := rfl

section Relax

variable {costs : Matrix Rat n} {rows : Fin n → Prop} {inserted : Fin n}
  {search : Search Rat (Option Rat) n} {order : List (Fin n)}

theorem slack_relax (standing : Option (Fin n)) (row col : Fin n) :
    (search.relax costs standing row).slack.get col =
      if search.improves costs row col then some (search.matching.gap costs row col)
      else search.slack.get col := by
  exact Vector.get_ofFn _ col

theorem via_relax (standing : Option (Fin n)) (row col : Fin n) :
    (search.relax costs standing row).matching.via.get col =
      if search.improves costs row col then standing else search.matching.via.get col := by
  exact Vector.get_ofFn _ col

theorem improves_of_idle {col : Fin n} (idle : search.used.get col = false) {held : Rat}
    (slack : search.slack.get col = some held) (row : Fin n) :
    search.improves costs row col = decide (search.matching.gap costs row col < held) := by
  rw [search.improves_eq, idle, slack]
  rfl

/-- Relaxing against a new place of the tree keeps the slack the least gap. -/
theorem LeastGap.relax {later : List (Fin n)} {standing : Option (Fin n)} {row col : Fin n}
    (known : LeastGap costs inserted search.matching order col (search.slack.get col))
    (idle : search.used.get col = false)
    (stands : search.matching.rowOf inserted standing = row)
    (grows : ∀ place, Reached later place ↔ Reached order place ∨ place = standing) :
    LeastGap costs inserted (search.relax costs standing row).matching later col
      ((search.relax costs standing row).slack.get col) := by
  obtain ⟨reached, attained, least⟩ := known
  have improves : search.improves costs row col = _ := improves_of_idle idle attained row
  have unchanged : ∀ place other,
      (search.relax costs standing row).matching.gap costs
          ((search.relax costs standing row).matching.rowOf inserted place) other =
        search.matching.gap costs (search.matching.rowOf inserted place) other :=
    fun _ _ => rfl
  by_cases closer : search.matching.gap costs row col < search.matching.gap costs
      (search.matching.rowOf inserted (search.matching.via.get col)) col
  · rw [decide_eq_true closer] at improves
    have via : (search.relax costs standing row).matching.via.get col = standing := by
      rw [via_relax, improves, if_pos rfl]
    refine ⟨?_, ?_, fun place placeReached => ?_⟩
    · rw [via]
      exact (grows standing).mpr (.inr rfl)
    · rw [slack_relax, improves, if_pos rfl, unchanged, via, stands]
    · rw [unchanged, unchanged, via, stands]
      rcases (grows place).mp placeReached with old | rfl
      · exact closer.le.trans (least place old)
      · rw [stands]
  · rw [decide_eq_false closer] at improves
    have via : (search.relax costs standing row).matching.via.get col =
        search.matching.via.get col := by
      rw [via_relax, improves]
      rfl
    refine ⟨?_, ?_, fun place placeReached => ?_⟩
    · rw [via]
      exact (grows _).mpr (.inl reached)
    · rw [slack_relax, improves, unchanged, via]
      exact attained
    · rw [unchanged, unchanged, via]
      rcases (grows place).mp placeReached with old | rfl
      · exact least place old
      · rw [stands]
        exact not_lt.mp closer

theorem reached_cons_iff {col : Fin n} {place : Option (Fin n)} :
    Reached (col :: order) place ↔ Reached order place ∨ place = some col := by
  cases place with
  | none => simp [Reached]
  | some other => simp [Reached, or_comm]

theorem WayBack.congr {matching other : Matching Rat n}
    (wayBack : WayBack costs inserted matching order)
    (via : ∀ col ∈ order, other.via.get col = matching.via.get col)
    (gap : ∀ col ∈ order, ∀ standing, Reached order standing →
      other.gap costs (other.rowOf inserted standing) col =
        matching.gap costs (matching.rowOf inserted standing) col) :
    WayBack costs inserted other order := by
  induction order with
  | nil => trivial
  | cons col earlier induction =>
      obtain ⟨reached, tight, rest⟩ := wayBack
      have subset : earlier ⊆ col :: earlier := List.subset_cons_self _ _
      refine ⟨?_, ?_, induction rest (fun place member => via place (subset member))
        fun place member standing standingReached =>
          gap place (subset member) standing (standingReached.mono subset)⟩
      · rw [via col (by simp)]
        exact reached
      · rw [via col (by simp), gap col (by simp) _ (reached.mono subset)]
        exact tight

/-- The first relaxation reaches every column. -/
theorem improves_start (costs : Matrix Rat n) (matching : Matching Rat n) (row col : Fin n) :
    (Search.start matching : Search Rat (Option Rat) n).improves costs row col = true := by
  simp [Search.improves, Search.start, Pricing.closer, Pricing.reached, Pricing.unreached]

/-- Relaxing against the inserted row starts a tree. -/
theorem grown_relax_start {matching : Matching Rat n} (sound : matching.Sound costs rows)
    (fresh : ¬ rows inserted) :
    ((Search.start matching : Search Rat (Option Rat) n).relax costs none inserted).Grown
      costs rows inserted [] := by
  refine ⟨⟨sound.feasible, sound.tight, sound.matched, sound.injective⟩, fresh, ?_,
    List.nodup_nil, by simp, trivial, ?_, by simp⟩
  · intro col
    simp [Search.relax, Search.start]
  · intro col _
    have via : ((Search.start matching : Search Rat (Option Rat) n).relax costs none
        inserted).matching.via.get col = none := by
      rw [via_relax, improves_start, if_pos rfl]
    refine ⟨?_, ?_, ?_⟩
    · rw [via]
      exact fun _ same => nomatch same
    · rw [via, slack_relax, improves_start, if_pos rfl]
      rfl
    · intro standing reached
      cases standing with
      | none => rw [via]
      | some other => exact absurd (reached other rfl) (by simp)

/-- A grown tree next to a tight free column, which can join it. -/
structure Search.Poised (costs : Matrix Rat n) (rows : Fin n → Prop) (inserted : Fin n)
    (order : List (Fin n)) (search : Search Rat (Option Rat) n) (col : Fin n) : Prop where
  grown : search.Grown costs rows inserted order
  free : col ∉ order
  reached : Reached order (search.matching.via.get col)
  tight : search.matching.gap costs
    (search.matching.rowOf inserted (search.matching.via.get col)) col = 0
  entered : ∀ other, 0 ≤ search.matching.gap costs inserted other

/-- Entering the column, if its partner is known, makes the tree grow by it. -/
theorem Search.Poised.relax {col row : Fin n}
    (poised : search.Poised costs rows inserted order col)
    (partner : search.matching.partner.get col = some row) :
    ((search.enter (some col)).relax costs (some col) row).Grown costs rows inserted
      (col :: order) := by
  obtain ⟨grown, free, reached, tight, entered⟩ := poised
  let next := (search.enter (some col)).relax costs (some col) row
  have used : ∀ other, (search.enter (some col)).used.get other = true ↔
      other ∈ col :: order := by
    intro other
    have entered : (search.enter (some col)).used.get other = _ :=
      get_set search.used true col other
    rw [List.mem_cons, ← grown.used, entered]
    by_cases same : other = col <;> simp [same]
  have standing : search.matching.rowOf inserted (some col) = row := by
    simp [Matching.rowOf, partner]
  have kept : ∀ other ∈ col :: order, next.matching.via.get other =
      search.matching.via.get other := by
    intro other member
    have idle : (search.enter (some col)).improves costs row other = false := by
      simp [Search.improves_eq, (used other).mpr member]
    simp only [next, via_relax, idle]
    rfl
  have sound : next.matching.Sound costs rows :=
    ⟨grown.sound.feasible, grown.sound.tight, grown.sound.matched, grown.sound.injective⟩
  refine ⟨sound, grown.fresh, used, List.nodup_cons.mpr ⟨free, grown.nodup⟩, ?_, ?_, ?_,
    fun _ => entered⟩
  · intro other member
    rcases List.mem_cons.mp member with rfl | old
    · exact ne_of_eq_of_ne partner (Option.some_ne_none row)
    · exact grown.held other old
  · have before : WayBack costs inserted search.matching (col :: order) :=
      ⟨reached, tight, grown.wayBack⟩
    exact before.congr kept fun _ _ _ _ => rfl
  · intro other outside
    obtain ⟨_, outsideOrder⟩ := not_or.mp (List.mem_cons.not.mp outside)
    have idle : (search.enter (some col)).used.get other = false := by
      rw [← Bool.not_eq_true, used]
      exact outside
    exact LeastGap.relax (grown.slack other outsideOrder) idle standing
      fun place => reached_cons_iff

end Relax

end OptimalPlans.Assignment
