import OptimalPlans.Proofs.Plane.MonotoneChain

/-!
# Convex hulls

The lower and the upper chain over the same points share their ends and lie on two sides of
the chord between them.  Joined they are a polygon that turns left at any three of its
points, and every point that beats all others in some linear form is among them.
-/

namespace OptimalPlans.Plane

variable {heading : Rat × Rat} {low high point : Point Rat} {middle back : List (Point Rat)}

/-- A chain from `low` to `high` over the points between. -/
structure Spans (heading : Rat × Rat) (low high : Point Rat) (middle : List (Point Rat)) :
    Prop where
  rises : (high :: (middle ++ [low])).Pairwise fun above below =>
    below.reach heading < above.reach heading
  turns : (high :: (middle ++ [low])).Triplewise fun above middle below =>
    0 < area below middle above

theorem ChainOver.exists_middle {points chain : List (Point Rat)}
    (chained : ChainOver heading points chain) (first : points.head? = some low)
    (last : points.getLast? = some high) (ends : chain.head? = points.getLast?)
    (different : low ≠ high) : ∃ middle, chain = high :: (middle ++ [low]) := by
  obtain ⟨upper, rfl⟩ := List.getLast?_eq_some_iff.mp (chained.starts.trans first)
  cases upper with
  | nil => exact absurd (Option.some.inj (ends.trans last)) different
  | cons top middle =>
      obtain rfl : top = high := Option.some.inj (ends.trans last)
      exact ⟨middle, rfl⟩

theorem Spans.turns_at (spans : Spans heading low high middle) (member : point ∈ middle) :
    0 < area low point high := by
  have turns := (List.triplewise_cons.mp spans.turns).1
  exact (List.pairwise_append.mp turns).2.2 point member low (List.mem_singleton_self low)

/-- The points below the top lie right of the chord. -/
theorem Spans.right_of_chord (spans : Spans heading low high middle)
    (member : point ∈ middle ++ [low]) :
    low.reach heading ≤ point.reach heading ∧ point.reach heading < high.reach heading ∧
      (point = low ∨ 0 < area low point high) := by
  obtain ⟨under, rises⟩ := List.pairwise_cons.mp spans.rises
  refine ⟨?_, under point member, ?_⟩
  · rcases List.mem_append.mp member with between | bottom
    · exact ((List.pairwise_append.mp rises).2.2 point between low (by simp)).le
    · rw [List.mem_singleton.mp bottom]
  · rcases List.mem_append.mp member with between | bottom
    · exact .inr (spans.turns_at between)
    · exact .inl (List.mem_singleton.mp bottom)

/-- A point on the other side of the chord lies left of every step and short cut below the
top. -/
theorem Spans.faces (spans : Spans heading low high middle)
    (after : low.reach heading < point.reach heading)
    (before : point.reach heading ≤ high.reach heading)
    (across : 0 ≤ area low high point) :
    (middle ++ [low]).Pairwise fun above below => 0 < area below above point := by
  have rises := (List.pairwise_cons.mp spans.rises).2
  obtain ⟨leftOfHigh, turns⟩ := List.triplewise_cons.mp spans.turns
  have leftOfLow : (middle ++ [low]).Pairwise fun above below => 0 ≤ area below above low := by
    obtain ⟨_, _, _, turnsFromLow⟩ := List.triplewise_append.mp turns
    refine List.pairwise_append.mpr ⟨?_, List.pairwise_singleton _ _, by simp⟩
    refine (turnsFromLow low (by simp)).imp fun left => ?_
    rw [area_rotate]
    exact left.le
  refine ((rises.and leftOfHigh).and leftOfLow).imp ?_
  rintro above below ⟨⟨step, leftOfHigh⟩, leftOfLow⟩
  exact area_pos_of_chord step after before leftOfLow leftOfHigh across

section Joined

variable (lower : Spans heading low high middle) (upper : Spans (-heading) high low back)

include lower upper

theorem Spans.faces_back {point : Point Rat} (member : point ∈ back ++ [high]) :
    (middle ++ [low]).Pairwise fun above below => 0 < area below above point := by
  obtain ⟨before, after, side⟩ := upper.right_of_chord member
  rw [reach_neg, reach_neg] at before after
  refine lower.faces (neg_lt_neg_iff.mp after) (neg_le_neg_iff.mp before) ?_
  rcases side with rfl | right
  · simp
  · rw [area_rotate low high point] at right
    exact right.le

theorem Spans.disjoint : (middle ++ [low]).Disjoint (back ++ [high]) := by
  intro point inLower inUpper
  obtain ⟨_, before, right⟩ := lower.right_of_chord inLower
  obtain ⟨_, after, left⟩ := upper.right_of_chord inUpper
  rw [reach_neg, reach_neg, neg_lt_neg_iff] at after
  have rightStrictly : 0 < area low point high :=
    right.resolve_left (by rintro rfl; exact lt_irrefl _ after)
  have leftStrictly : 0 < area high point low :=
    left.resolve_left (by rintro rfl; exact lt_irrefl _ before)
  rw [area_rotate high low point, area_swap] at rightStrictly
  rw [area_rotate low high point] at leftStrictly
  exact lt_asymm leftStrictly (neg_pos.mp rightStrictly)

/-- Both chains without their tops, on the way there and back. -/
theorem Spans.triplewise_joined :
    ((middle ++ [low]).reverse ++ (back ++ [high]).reverse).Triplewise
      fun first second third => 0 < area first second third := by
  have lowerTurns := (List.triplewise_cons.mp lower.turns).2
  have upperTurns := (List.triplewise_cons.mp upper.turns).2
  have returned : Spans (- -heading) low high middle := by rwa [neg_neg]
  refine List.triplewise_append.mpr ⟨List.triplewise_reverse.mpr lowerTurns,
    List.triplewise_reverse.mpr upperTurns, fun point member => ?_, fun point member => ?_⟩
  · refine List.pairwise_reverse.mpr ((upper.faces_back returned
      (List.mem_reverse.mp member)).imp fun left => ?_)
    rwa [area_rotate] at left
  · exact List.pairwise_reverse.mpr (lower.faces_back upper (List.mem_reverse.mp member))

theorem Spans.nodup_joined :
    ((middle ++ [low]).reverse ++ (back ++ [high]).reverse).Nodup := by
  have distinct : ∀ {heading : Rat × Rat} {high low : Point Rat} {middle : List (Point Rat)},
      Spans heading low high middle → (middle ++ [low]).reverse.Nodup := by
    intro heading high low middle spans
    have rises := (List.pairwise_cons.mp spans.rises).2
    refine List.nodup_reverse.mpr (rises.imp ?_)
    rintro point _ less rfl
    exact lt_irrefl _ less
  refine (distinct lower).append (distinct upper) fun point inLower inUpper => ?_
  exact lower.disjoint upper (List.mem_reverse.mp inLower) (List.mem_reverse.mp inUpper)

end Joined

/-! ## The hull -/

theorem triplewise_rotate {α : Type} {relation : α → α → α → Prop}
    (turned : ∀ {first second third}, relation first second third →
      relation second third first)
    {values : List α} (holds : values.Triplewise relation) (shift : Nat) :
    (values.rotate shift).Triplewise relation := by
  rw [List.rotate_eq_drop_append_take_mod]
  rw [← List.take_append_drop (shift % values.length) values] at holds
  obtain ⟨early, late, across, back⟩ := List.triplewise_append.mp holds
  refine List.triplewise_append.mpr ⟨late, early, fun value member => ?_,
    fun value member => (across value member).imp turned⟩
  exact (back value member).imp fun related => turned (turned related)

/-- A hull of points: it lists some of them once each, turns left at any three, and keeps
every point that is exposed. -/
structure Encloses (points hull : List (Point Rat)) : Prop where
  nodup : hull.Nodup
  within : ∀ point ∈ hull, point ∈ points
  turns : hull.Triplewise fun first second third => 0 < area first second third
  keeps : ∀ normal, ∀ point ∈ points, Exposed normal points point → point ∈ hull

theorem Encloses.perm {points hull : List (Point Rat)} (encloses : Encloses points hull)
    (nodup : points.Nodup) (exposed : ∀ point ∈ points, ∃ normal, Exposed normal points point) :
    hull.Perm points := by
  refine (List.perm_ext_iff_of_nodup encloses.nodup nodup).mpr fun point =>
    ⟨encloses.within point, fun member => ?_⟩
  obtain ⟨normal, beyond⟩ := exposed point member
  exact encloses.keeps normal point member beyond

theorem Encloses.of_perm {points ordered hull : List (Point Rat)}
    (encloses : Encloses ordered hull) (permutation : ordered.Perm points) :
    Encloses points hull where
  nodup := encloses.nodup
  within := fun point member => permutation.mem_iff.mp (encloses.within point member)
  turns := encloses.turns
  keeps := fun normal point member exposed =>
    encloses.keeps normal point (permutation.mem_iff.mpr member) fun other listed =>
      exposed other (permutation.mem_iff.mp listed)

/-- A list with at most one point is its own hull. -/
theorem encloses_self {points : List (Point Rat)} (few : points.length ≤ 1) :
    Encloses points points := by
  cases points with
  | nil => exact ⟨List.nodup_nil, by simp, List.Triplewise.nil, by simp⟩
  | cons point rest =>
      obtain rfl : rest = [] := by simpa using few
      exact ⟨List.nodup_singleton _, fun _ member => member, List.triplewise_singleton _ _,
        fun _ _ member _ => member⟩

theorem exists_ends {points : List (Point Rat)} (ascends : Ascending heading points)
    (different : ∃ left ∈ points, ∃ right ∈ points, left ≠ right) :
    ∃ low high, points.head? = some low ∧ points.getLast? = some high ∧ low ≠ high := by
  obtain ⟨left, leftMember, right, rightMember, apart⟩ := different
  have nonempty := List.ne_nil_of_mem leftMember
  have first := List.head?_eq_some_head nonempty
  have last := List.getLast?_eq_some_getLast nonempty
  refine ⟨_, _, first, last, fun same => ?_⟩
  -- With the same ends no point lies behind the last one.
  have every : ∀ point ∈ points, point = points.getLast nonempty := by
    intro point member
    have under := reach_le_of_head? ascends first member
    rw [same] at under
    exact (eq_or_reach_lt ascends last member).resolve_right (not_lt.mpr under)
  exact apart ((every left leftMember).trans (every right rightMember).symm)

/-- The chains over ascending points, from the first one to the last one and back. -/
structure Outlines (heading : Rat × Rat) (points : List (Point Rat)) (low high : Point Rat)
    (middle back : List (Point Rat)) : Prop where
  ascends : Ascending heading points
  first : points.head? = some low
  last : points.getLast? = some high
  lower : ChainOver heading points (high :: (middle ++ [low]))
  upper : ChainOver (-heading) points.reverse (low :: (back ++ [high]))

theorem chains_outline {points : List (Point Rat)} (ascends : Ascending heading points)
    (different : ∃ left ∈ points, ∃ right ∈ points, left ≠ right) :
    ∃ low high middle back, chain points = .ok (high :: (middle ++ [low])) ∧
      chain points.reverse = .ok (low :: (back ++ [high])) ∧
      Outlines heading points low high middle back := by
  obtain ⟨low, high, first, last, apart⟩ := exists_ends ascends different
  have lastBack := List.head?_reverse.trans last
  have firstBack := List.getLast?_reverse.trans first
  obtain ⟨lower, lowerRun, lowerChained, lowerEnds⟩ :=
    chain_eq_ok ascends (by simp [first, last, apart])
  obtain ⟨upper, upperRun, upperChained, upperEnds⟩ :=
    chain_eq_ok ascends.reverse (by simp [lastBack, firstBack, apart.symm])
  obtain ⟨middle, rfl⟩ := lowerChained.exists_middle first last lowerEnds apart
  obtain ⟨back, rfl⟩ := upperChained.exists_middle lastBack firstBack upperEnds apart.symm
  exact ⟨low, high, middle, back, lowerRun, upperRun, ascends, first, last, lowerChained,
    upperChained⟩

/-- The walk along the lower chain and back along the upper one. -/
def walk (low high : Point Rat) (middle back : List (Point Rat)) : List (Point Rat) :=
  low :: (middle.reverse ++ high :: back.reverse)

theorem reverse_append_reverse (low high : Point Rat) (middle back : List (Point Rat)) :
    (middle ++ [low]).reverse ++ (back ++ [high]).reverse = walk low high middle back := by
  simp [walk]

theorem mem_walk_iff : point ∈ walk low high middle back ↔
    point ∈ high :: (middle ++ [low]) ∨ point ∈ low :: (back ++ [high]) := by
  simp only [walk, List.mem_append, List.mem_reverse, List.mem_cons, List.not_mem_nil, or_false]
  tauto

section Outlined

variable {points : List (Point Rat)} (outlines : Outlines heading points low high middle back)

include outlines

theorem Outlines.lastBack : points.reverse.getLast? = some low :=
  List.getLast?_reverse.trans outlines.first

theorem Outlines.lower_spans : Spans heading low high middle :=
  ⟨outlines.lower.rises, outlines.lower.turns⟩

theorem Outlines.upper_spans : Spans (-heading) high low back :=
  ⟨outlines.upper.rises, outlines.upper.turns⟩

/-- The walk along both chains encloses the points. -/
theorem Outlines.encloses : Encloses points (walk low high middle back) where
  nodup := by
    rw [← reverse_append_reverse]
    exact outlines.lower_spans.nodup_joined outlines.upper_spans
  within := by
    intro point member
    rcases mem_walk_iff.mp member with below | above
    · exact outlines.lower.within point below
    · exact List.mem_reverse.mp (outlines.upper.within point above)
  turns := by
    rw [← reverse_append_reverse]
    exact outlines.lower_spans.triplewise_joined outlines.upper_spans
  keeps := by
    intro normal point member exposed
    apply mem_walk_iff.mpr
    rcases le_total (dot normal (along heading)) 0 with right | left
    · exact .inl (outlines.lower.mem_of_exposed outlines.last.symm outlines.ascends member
        exposed right)
    · right
      apply outlines.upper.mem_of_exposed outlines.lastBack.symm outlines.ascends.reverse
        (List.mem_reverse.mpr member)
      · intro other listed
        exact exposed other (List.mem_reverse.mp listed)
      · rw [along_neg, dot_neg]
        exact neg_nonpos.mpr left

end Outlined

/-- The hull of points of which two differ joins the chains over them in ascending order. -/
theorem convexHull_outlines {points : List (Point Rat)}
    (different : ∃ left ∈ points, ∃ right ∈ points, left ≠ right) :
    ∃ ordered heading low high middle back, ordered.Perm points ∧
      (ordered.Pairwise fun left right => left.key ≤ right.key) ∧
      Outlines heading ordered low high middle back ∧
      convexHull points = .ok (walk low high middle back) := by
  obtain ⟨ordered, sorted, permutation, keys⟩ := Scalar.sortBy_ascends precedes_eq_ok points
  obtain ⟨heading, ascends⟩ := exists_heading keys
  have several : ∃ left ∈ ordered, ∃ right ∈ ordered, left ≠ right := by
    simpa only [permutation.mem_iff] using different
  obtain ⟨low, high, middle, back, lowerRun, upperRun, outlines⟩ := chains_outline ascends several
  have many : ¬ points.length ≤ 1 := by
    intro few
    cases points with
    | nil => simp at different
    | cons point rest =>
        obtain rfl : rest = [] := by simpa using few
        simp at different
  refine ⟨ordered, heading, low, high, middle, back, permutation, keys, outlines, ?_⟩
  rw [convexHull, if_neg many, sorted, ok_bind, lowerRun, ok_bind, upperRun, ok_bind,
    ← reverse_append_reverse]
  rfl

/-- The hull of distinct points encloses them. -/
theorem convexHull_eq_ok {points : List (Point Rat)} (nodup : points.Nodup) :
    ∃ hull, convexHull points = .ok hull ∧ Encloses points hull := by
  match points, nodup with
  | [], _ => exact ⟨[], rfl, encloses_self (Nat.zero_le 1)⟩
  | [point], _ => exact ⟨[point], rfl, encloses_self le_rfl⟩
  | point :: other :: rest, nodup =>
      have different : ∃ left ∈ point :: other :: rest, ∃ right ∈ point :: other :: rest,
          left ≠ right :=
        ⟨point, by simp, other, by simp, fun same => (List.nodup_cons.mp nodup).1 (by simp [same])⟩
      obtain ⟨_, _, _, _, _, _, permutation, _, outlines, result⟩ := convexHull_outlines different
      exact ⟨_, result, outlines.encloses.of_perm permutation⟩

end OptimalPlans.Plane
