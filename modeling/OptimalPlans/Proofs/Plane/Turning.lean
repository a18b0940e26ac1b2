import OptimalPlans.Plane.Hull
import OptimalPlans.Proofs.Exactness
import OptimalPlans.Proofs.Plane.Region

/-!
# Turns of rational points

The turn over three points is the signed area they span.  Along a heading a linear form is
interpolated between two points up to that area, and from this one identity follows how
the turns over four points determine each other.  For any finite list of points in
ascending order some heading passes them in that order, repeated points at once.
-/

namespace OptimalPlans.Plane

open scoped Topology

/-- Twice the area of a triangle, positive when its corners run counter-clockwise. -/
def area (origin via target : Point Rat) : Rat :=
  (via.x - origin.x) * (target.y - origin.y) - (via.y - origin.y) * (target.x - origin.x)

theorem turn_eq_ok (origin via target : Point Rat) :
    turn origin via target = .ok (area origin via target) := rfl

theorem area_rotate (first second third : Point Rat) :
    area second third first = area first second third := by
  simp only [area]
  ring

theorem area_swap (first second third : Point Rat) :
    area second first third = -area first second third := by
  simp only [area]
  ring

@[simp] theorem area_returns (first second : Point Rat) : area first second first = 0 := by
  simp [area]

@[simp] theorem area_stays (first second : Point Rat) : area first second second = 0 := by
  simp only [area]
  ring

@[simp] theorem area_starts (first second : Point Rat) : area first first second = 0 := by
  simp [area]

/-- How far a point lies in the direction of a heading. -/
def Point.reach (heading : Rat × Rat) (point : Point Rat) : Rat :=
  heading.1 * point.x + heading.2 * point.y

@[simp] theorem reach_neg (heading : Rat × Rat) (point : Point Rat) :
    point.reach (-heading) = -point.reach heading := by
  simp only [Point.reach, Prod.fst_neg, Prod.snd_neg]
  ring

theorem dot_cast_eq_reach (heading : Rat × Rat) (point : Point Rat) :
    dot heading (point.cast Rat) = point.reach heading := by
  simp [dot, Point.cast, Point.reach]

/-- Every point lies further along the heading than a point before it, or repeats it. -/
def Ascending (heading : Rat × Rat) (points : List (Point Rat)) : Prop :=
  points.Pairwise fun left right => left = right ∨ left.reach heading < right.reach heading

theorem Ascending.reverse {heading : Rat × Rat} {points : List (Point Rat)}
    (ascends : Ascending heading points) : Ascending (-heading) points.reverse := by
  apply List.pairwise_reverse.mpr
  apply ascends.imp
  intro left right order
  rw [reach_neg, reach_neg, neg_lt_neg_iff]
  exact order.imp_left Eq.symm

/-! ## Interpolation along a heading -/

section Interpolation

variable {heading : Rat × Rat}

/-- A linear form at a point is its mean at two others, weighted along the heading, up to
the area the three points span. -/
theorem reach_interpolate (heading normal : Rat × Rat) (low high point : Point Rat) :
    (high.reach heading - low.reach heading) * point.reach normal =
      (point.reach heading - low.reach heading) * high.reach normal +
        (high.reach heading - point.reach heading) * low.reach normal +
        dot normal (along heading) * area low high point := by
  simp only [Point.reach, dot_along, area]
  ring

theorem area_interpolate (heading : Rat × Rat) (first second low high point : Point Rat) :
    (high.reach heading - low.reach heading) * area first second point =
      (point.reach heading - low.reach heading) * area first second high +
        (high.reach heading - point.reach heading) * area first second low +
        (second.reach heading - first.reach heading) * area low high point := by
  simp only [Point.reach, area]
  ring

variable {low middle high point : Point Rat}

/-- Where the path over three points does not turn left, what lies left of its first step
lies left of the short cut. -/
theorem area_nonneg_of_short_cut (rises : low.reach heading < middle.reach heading)
    (goesOn : low.reach heading < high.reach heading)
    (ahead : low.reach heading ≤ point.reach heading)
    (right : area low middle high ≤ 0) (left : 0 ≤ area low middle point) :
    0 ≤ area low high point := by
  have identity := area_interpolate heading low high low middle point
  have swapped : area low high middle = -area low middle high := by
    rw [← area_rotate, ← area_rotate, area_swap]
  rw [swapped, area_returns, mul_zero, add_zero] at identity
  have first := mul_nonneg (sub_nonneg.mpr ahead) (neg_nonneg.mpr right)
  have second := mul_nonneg (sub_pos.mpr goesOn).le left
  rw [← mul_nonneg_iff_of_pos_left (sub_pos.mpr rises), identity]
  exact add_nonneg first second

/-- Where the path over three points turns left, what lies left of its first step and
behind its second one lies left of that one. -/
theorem area_pos_behind (rises : low.reach heading < middle.reach heading)
    (goesOn : middle.reach heading < high.reach heading)
    (behind : point.reach heading < middle.reach heading)
    (turns : 0 < area low middle high) (left : 0 ≤ area low middle point) :
    0 < area middle high point := by
  have identity := area_interpolate heading middle high low middle point
  rw [area_returns, mul_zero, zero_add, area_rotate low middle high] at identity
  have first := mul_pos (sub_pos.mpr behind) turns
  have second := mul_nonneg (sub_pos.mpr goesOn).le left
  rw [← mul_pos_iff_of_pos_left (sub_pos.mpr rises), identity]
  exact add_pos_of_pos_of_nonneg first second

/-- Two left turns in a row leave what they lead to left of their first step. -/
theorem area_pos_ahead (rises : low.reach heading < middle.reach heading)
    (goesOn : middle.reach heading < high.reach heading)
    (ahead : high.reach heading < point.reach heading)
    (turns : 0 < area low middle high) (turnsAgain : 0 < area middle high point) :
    0 < area low middle point := by
  have identity := area_interpolate heading low middle middle high point
  rw [area_stays, mul_zero, add_zero] at identity
  have first := mul_pos (sub_pos.mpr (goesOn.trans ahead)) turns
  have second := mul_pos (sub_pos.mpr rises) turnsAgain
  rw [← mul_pos_iff_of_pos_left (sub_pos.mpr goesOn), identity]
  exact add_pos first second

/-- A point above the chord from `low` to `high` lies left of every rising step that has
one end of the chord on its left and the other not on its right. -/
theorem area_pos_of_chord {first second : Point Rat}
    (rises : first.reach heading < second.reach heading)
    (after : low.reach heading < point.reach heading)
    (before : point.reach heading ≤ high.reach heading)
    (lowLeft : 0 ≤ area first second low) (highLeft : 0 < area first second high)
    (above : 0 ≤ area low high point) : 0 < area first second point := by
  have identity := area_interpolate heading first second low high point
  have end₁ := mul_pos (sub_pos.mpr after) highLeft
  have end₂ := mul_nonneg (sub_nonneg.mpr before) lowLeft
  have lift := mul_nonneg (sub_pos.mpr rises).le above
  rw [← mul_pos_iff_of_pos_left (sub_pos.mpr (after.trans_le before)), identity]
  exact add_pos_of_pos_of_nonneg (add_pos_of_pos_of_nonneg end₁ end₂) lift

/-- Left of a step, a linear form that does not grow to the left exceeds its values at the
ends of the step nowhere. -/
theorem reach_le_max {normal : Rat × Rat} (after : low.reach heading < point.reach heading)
    (before : point.reach heading < high.reach heading)
    (falls : dot normal (along heading) ≤ 0) (left : 0 ≤ area low high point) :
    point.reach normal ≤ max (low.reach normal) (high.reach normal) := by
  by_contra beyond
  obtain ⟨beyondLow, beyondHigh⟩ := max_lt_iff.mp (not_le.mp beyond)
  have identity := reach_interpolate heading normal low high point
  have lost := mul_nonneg (neg_nonneg.mpr falls) left
  have shareHigh := mul_pos (sub_pos.mpr after) (sub_pos.mpr beyondHigh)
  have shareLow := mul_pos (sub_pos.mpr before) (sub_pos.mpr beyondLow)
  linarith

end Interpolation

/-! ## Points in order -/

/-- The key by which points are sorted. -/
def Point.key (point : Point Rat) : Rat ×ₗ Rat :=
  toLex (point.x, point.y)

theorem key_injective : Function.Injective Point.key := by
  rintro ⟨x, y⟩ ⟨x', y'⟩ same
  obtain ⟨rfl, rfl⟩ := Prod.mk.inj (toLex.injective same)
  rfl

theorem key_lt_iff {left right : Point Rat} :
    left.key < right.key ↔ left.x < right.x ∨ left.x = right.x ∧ left.y < right.y :=
  Prod.Lex.toLex_lt_toLex

theorem precedes_eq_ok (left right : Point Rat) :
    Point.precedes left right = .ok (decide (left.key < right.key)) := by
  have horizontal : Scalar.same left.x right.x = decide (left.x = right.x) :=
    beq_eq_decide ..
  have vertical : Scalar.same left.y right.y = decide (left.y = right.y) :=
    beq_eq_decide ..
  simp only [Point.precedes, Scalar.precedes, horizontal, vertical, Scalar.less_rat,
    key_lt_iff]
  by_cases above : left.x = right.x
  · by_cases same : left.y = right.y
    · simp [above, same]
    · simp [above, same]
  · simp [above]

/-- A heading that leans slightly upwards passes two ascending points in their order. -/
theorem eventually_reach_lt {left right : Point Rat} (ascends : left.key < right.key) :
    ∀ᶠ lean in 𝓝[>] (0 : Rat), left.reach (1, lean) < right.reach (1, lean) := by
  simp only [Point.reach, one_mul]
  rcases key_lt_iff.mp ascends with further | ⟨level, higher⟩
  · have leftMoves : Continuous fun lean : Rat => left.x + lean * left.y := by fun_prop
    have rightMoves : Continuous fun lean : Rat => right.x + lean * right.y := by fun_prop
    have level : left.x + 0 * left.y < right.x + 0 * right.y := by
      simpa using further
    exact (leftMoves.continuousAt.eventually_lt rightMoves.continuousAt level).filter_mono
      nhdsWithin_le_nhds
  · filter_upwards [self_mem_nhdsWithin] with lean positive
    rw [level]
    exact add_lt_add_right (mul_lt_mul_of_pos_left higher positive) _

/-- Some heading passes finitely many ascending points in their order. -/
theorem exists_heading {points : List (Point Rat)}
    (ascends : points.Pairwise fun left right => left.key ≤ right.key) :
    ∃ heading : Rat × Rat, Ascending heading points := by
  suffices slightly : ∀ᶠ lean in 𝓝[>] (0 : Rat), points.Pairwise fun left right =>
      left = right ∨ left.reach (1, lean) < right.reach (1, lean) by
    obtain ⟨lean, rises⟩ := slightly.exists
    exact ⟨(1, lean), rises⟩
  induction points with
  | nil => exact .of_forall fun _ => List.Pairwise.nil
  | cons point rest induction =>
      obtain ⟨first, later⟩ := List.pairwise_cons.mp ascends
      have passes : ∀ᶠ lean in 𝓝[>] (0 : Rat), ∀ other ∈ rest,
          point = other ∨ point.reach (1, lean) < other.reach (1, lean) := by
        apply (List.finite_toSet rest).eventually_all.mpr
        intro other member
        rcases (first other member).eq_or_lt with same | before
        · exact .of_forall fun _ => .inl (key_injective same)
        · exact (eventually_reach_lt before).mono fun _ => .inr
      filter_upwards [passes, induction later] with lean ahead rises
      exact List.pairwise_cons.mpr ⟨ahead, rises⟩

end OptimalPlans.Plane
