import OptimalPlans.Proofs.Plane.ConvexHull

/-!
# The corners of a hull

The steps of both chains are the sides of a polygon that holds all points.  A point of a
chain is where two sides meet, or one of the ends, so no other point is as far in some
direction.  A point that is on no chain lies between a step of the one and a step of the
other.  So the hull of a list of points, whether repeated or on a line, lists the extreme
points of the smallest convex set around them.
-/

namespace OptimalPlans

section Spanned

variable (K : Type) [Field K] [LinearOrder K] (places : Set (K × K))

/-- The smallest convex set around some places. -/
def spannedBy : Set (K × K) :=
  convexHull K places

theorem convex_spannedBy : Convex K (spannedBy K places) :=
  convex_convexHull K places

theorem subset_spannedBy : places ⊆ spannedBy K places :=
  subset_convexHull K places

variable {places} in
theorem spannedBy_subset {set : Set (K × K)} (holds : places ⊆ set) (convex : Convex K set) :
    spannedBy K places ⊆ set :=
  convexHull_min holds convex

variable {places} in
theorem spannedBy_mono {others : Set (K × K)} (subset : places ⊆ others) :
    spannedBy K places ⊆ spannedBy K others :=
  convexHull_mono subset

variable [IsStrictOrderedRing K]

theorem extremePoints_spannedBy_subset : (spannedBy K places).extremePoints K ⊆ places :=
  extremePoints_convexHull_subset

theorem spannedBy_pair (left right : K × K) :
    spannedBy K {left, right} = segment K left right :=
  convexHull_pair left right

end Spanned

namespace Plane

section Places

variable {K : Type} [Field K] {points others : List (Point Rat)}

/-- The places of some points. -/
def places (K : Type) [Field K] (points : List (Point Rat)) : Set (K × K) :=
  {place | ∃ point ∈ points, point.cast K = place}

theorem cast_mem_places {point : Point Rat} (member : point ∈ points) :
    point.cast K ∈ places K points :=
  ⟨point, member, rfl⟩

theorem places_mono (subset : points ⊆ others) : places K points ⊆ places K others := by
  rintro _ ⟨point, member, rfl⟩
  exact cast_mem_places (subset member)

theorem places_pair (left right : Point Rat) :
    places K [left, right] = {left.cast K, right.cast K} := by
  ext place
  simp [places, eq_comm]

theorem places_perm (permutation : others.Perm points) :
    places K others = places K points :=
  Set.Subset.antisymm (places_mono permutation.subset) (places_mono permutation.symm.subset)

end Places

variable {points : List (Point Rat)} {point : Point Rat} {heading : Rat × Rat}

/-! ## Exposed points are extreme -/

section Extreme

variable {K : Type} [Field K] [LinearOrder K] [IsStrictOrderedRing K]

/-- A corner and the places that are not as far as it along a normal. -/
def peak (normal corner : K × K) : Set (K × K) :=
  {place | place = corner ∨ dot normal place < dot normal corner}

variable {normal corner left right : K × K} {weight rest : K}

omit [IsStrictOrderedRing K] in
theorem dot_le_of_mem_peak (member : left ∈ peak normal corner) :
    dot normal left ≤ dot normal corner := by
  rcases member with rfl | below
  · exact le_rfl
  · exact le_of_lt below

/-- Only the corner itself is a mean of places of its peak that is as far. -/
theorem dot_mean_lt (weightPositive : 0 < weight) (restPositive : 0 < rest)
    (total : weight + rest = 1) (leftMember : left ∈ peak normal corner)
    (rightMember : right ∈ peak normal corner) (apart : ¬ (left = corner ∧ right = corner)) :
    dot normal (weight • left + rest • right) < dot normal corner := by
  have leftUpTo := mul_le_mul_of_nonneg_left (dot_le_of_mem_peak leftMember) weightPositive.le
  have rightUpTo := mul_le_mul_of_nonneg_left (dot_le_of_mem_peak rightMember) restPositive.le
  rw [dot_mean, ← mean_self total (dot normal corner)]
  rcases not_and_or.mp apart with different | different
  · apply add_lt_add_of_lt_of_le _ rightUpTo
    exact mul_lt_mul_of_pos_left (leftMember.resolve_left different) weightPositive
  · apply add_lt_add_of_le_of_lt leftUpTo
    exact mul_lt_mul_of_pos_left (rightMember.resolve_left different) restPositive

theorem convex_peak (normal corner : K × K) : Convex K (peak normal corner) := by
  apply convex_iff_forall_pos.mpr
  intro left leftMember right rightMember weight rest weightPositive restPositive total
  by_cases both : left = corner ∧ right = corner
  · left
    rw [both.1, both.2, ← add_smul, total, one_smul]
  · right
    exact dot_mean_lt weightPositive restPositive total leftMember rightMember both

theorem dot_cast_cast (normal : Rat × Rat) (point : Point Rat) :
    dot ((normal.1 : K), (normal.2 : K)) (point.cast K) = (point.reach normal : K) := by
  simp only [dot, Point.cast, Point.reach]
  push_cast
  rfl

/-- An exposed point is extreme. -/
theorem Exposed.mem_extremePoints {normal : Rat × Rat} (exposed : Exposed normal points point)
    (member : point ∈ points) :
    point.cast K ∈ (spannedBy K (places K points)).extremePoints K := by
  have within : spannedBy K (places K points) ⊆ peak (normal.1, normal.2) (point.cast K) := by
    apply spannedBy_subset K _ (convex_peak _ _)
    rintro _ ⟨other, listed, rfl⟩
    by_cases same : other = point
    · exact .inl (congrArg _ same)
    · right
      rw [dot_cast_cast, dot_cast_cast]
      exact_mod_cast exposed other listed same
  constructor
  · exact subset_spannedBy K _ (cast_mem_places member)
  · rintro left leftInside right rightInside
      ⟨weight, rest, weightPositive, restPositive, total, mean⟩
    by_contra apart
    have less := dot_mean_lt weightPositive restPositive total (within leftInside)
      (within rightInside) fun both => apart both.1
    rw [mean] at less
    exact lt_irrefl _ less

end Extreme

/-! ## The points of a chain are exposed -/

/-- The side of a line that lies left of a step. -/
def leftOf (origin via : Point Rat) : HalfPlane Rat :=
  ⟨(via.y - origin.y, origin.x - via.x),
    (via.y - origin.y) * origin.x + (origin.x - via.x) * origin.y⟩

theorem excess_leftOf (origin via point : Point Rat) :
    dot (leftOf origin via).normal (point.cast Rat) =
      (leftOf origin via).bound - area origin via point := by
  simp only [leftOf, dot, Point.cast, area, Rat.cast_id]
  ring

theorem crosses_leftOf {below above : Point Rat} (turns : area below point above ≠ 0) :
    (leftOf below point).Crosses (leftOf point above) := by
  have same : dot (leftOf point above).normal (along (leftOf below point).normal) =
      area below point above := by
    simp only [leftOf, dot_along, area]
    ring
  rw [HalfPlane.Crosses, same]
  exact turns

/-- Where a left turn leaves all points left of both its steps, no point is as far as its
corner along some normal. -/
theorem exists_exposed_of_turn {below above : Point Rat}
    (first : ∀ other ∈ points, 0 ≤ area below point other)
    (second : ∀ other ∈ points, 0 ≤ area point above other)
    (turns : 0 < area below point above) : ∃ normal, Exposed normal points point := by
  let sides := [leftOf below point, leftOf point above]
  have holds : ∀ other, 0 ≤ area below point other → 0 ≤ area point above other →
      other.cast Rat ∈ polygon sides := by
    intro other leftOfFirst leftOfSecond side member
    rcases List.mem_pair.mp member with rfl | rfl
    · rw [HalfPlane.Contains, excess_leftOf]
      exact sub_le_self _ leftOfFirst
    · rw [HalfPlane.Contains, excess_leftOf]
      exact sub_le_self _ leftOfSecond
  have corner : IsCorner sides (point.cast Rat) := by
    refine ⟨holds point (by simp) (by simp), leftOf below point, by simp [sides],
      leftOf point above, by simp [sides], crosses_leftOf turns.ne', ?_, ?_⟩
    · rw [HalfPlane.Touches, excess_leftOf, area_stays, sub_zero]
    · rw [HalfPlane.Touches, excess_leftOf, area_returns, sub_zero]
  obtain ⟨normal, further⟩ := corner.exists_normal
  refine ⟨normal, fun other listed different => ?_⟩
  have less := further _ (holds other (first other listed) (second other listed))
    (cast_injective.ne different)
  rwa [dot_cast_eq_reach, dot_cast_eq_reach] at less

/-- A member of a linked list is one of its ends, or linked to both sides. -/
theorem exists_neighbours {α : Type} {linked : α → α → Prop} {turned : α → α → α → Prop}
    {top value : α} {rest : List α} (links : (top :: rest).IsChain linked)
    (turns : (top :: rest).Triplewise turned) (member : value ∈ top :: rest) :
    value = top ∨ (top :: rest).getLast? = some value ∨
      ∃ above below, linked above value ∧ linked value below ∧ turned above value below := by
  induction rest generalizing top with
  | nil => exact .inl (List.mem_singleton.mp member)
  | cons next rest induction =>
      obtain ⟨link, laterLinks⟩ := List.isChain_cons_cons.mp links
      obtain ⟨topTurns, laterTurns⟩ := List.triplewise_cons.mp turns
      rcases List.mem_cons.mp member with same | later
      · exact .inl same
      · right
        rcases induction laterLinks laterTurns later with rfl | last | between
        · cases rest with
          | nil => exact .inl rfl
          | cons below rest =>
              have linkBelow := (List.isChain_cons_cons.mp laterLinks).1
              have turn := (List.pairwise_cons.mp topTurns).1 below List.mem_cons_self
              exact .inr ⟨top, below, link, linkBelow, turn⟩
        · exact .inl (List.getLast?_cons_cons.trans last)
        · exact .inr between

theorem ChainOver.exists_exposed {chain : List (Point Rat)}
    (chained : ChainOver heading points chain) (ends : chain.head? = points.getLast?)
    (ascends : Ascending heading points) (member : point ∈ chain) :
    ∃ normal, Exposed normal points point := by
  cases chain with
  | nil => cases member
  | cons top rest =>
      rcases exists_neighbours chained.supports chained.turns member with
        rfl | last | ⟨above, below, leftOfNext, leftOfStep, turn⟩
      · exact ⟨heading, fun other listed different =>
          (eq_or_reach_lt ascends ends.symm listed).resolve_left different⟩
      · have first := chained.starts.symm.trans last
        have within := chained.within point member
        refine ⟨-heading, fun other listed different => ?_⟩
        rw [reach_neg, reach_neg, neg_lt_neg_iff]
        apply (reach_le_of_head? ascends first listed).lt_of_ne
        intro same
        exact different (eq_of_reach_eq ascends listed within same.symm)
      · exact exists_exposed_of_turn leftOfStep leftOfNext turn

/-! ## Points between the chains -/

/-- The mean of two points with weights that need not add up to one. -/
def Point.between (weight rest : Rat) (left right : Point Rat) : Point Rat :=
  ⟨(weight * left.x + rest * right.x) / (weight + rest),
    (weight * left.y + rest * right.y) / (weight + rest)⟩

section Convex

variable {K : Type} [Field K] [LinearOrder K] [IsStrictOrderedRing K]

theorem between_mem {set : Set (K × K)} (convex : Convex K set) {weight rest : Rat}
    (weightNonneg : 0 ≤ weight) (restNonneg : 0 ≤ rest) (positive : 0 < weight + rest)
    {left right : Point Rat} (leftMember : left.cast K ∈ set) (rightMember : right.cast K ∈ set) :
    (Point.between weight rest left right).cast K ∈ set := by
  have total : (0 : K) < weight + rest := by exact_mod_cast positive
  have mean := convex_iff_div.mp convex leftMember rightMember (Rat.cast_nonneg.mpr weightNonneg)
    (Rat.cast_nonneg.mpr restNonneg) total
  have same : (Point.between weight rest left right).cast K =
      ((weight : K) / (weight + rest)) • left.cast K +
        ((rest : K) / (weight + rest)) • right.cast K := by
    ext <;>
    · simp only [Point.between, Point.cast, Prod.fst_add, Prod.snd_add, Prod.smul_fst,
        Prod.smul_snd, smul_eq_mul]
      push_cast
      ring
  rw [same]
  exact mean

theorem reach_right (point : Point Rat) : point.reach (1, 0) = point.x := by
  simp [Point.reach]

theorem reach_up (point : Point Rat) : point.reach (0, 1) = point.y := by
  simp [Point.reach]

theorem dot_right (place : Rat × Rat) : dot (1, 0) place = place.1 := by
  simp [dot]

theorem dot_up (place : Rat × Rat) : dot (0, 1) place = place.2 := by
  simp [dot]

/-- A point seen stands over its foot on the chain, on the left of the heading. -/
theorem ChainOver.exists_foot {chain : List (Point Rat)}
    (chained : ChainOver heading points chain) (ends : chain.head? = points.getLast?)
    (ascends : Ascending heading points) (member : point ∈ points) :
    ∃ (foot : Point Rat) (rise : Rat), 0 ≤ rise ∧
      foot.cast K ∈ spannedBy K (places K chain) ∧
      point.x = foot.x + rise * (along heading).1 ∧
      point.y = foot.y + rise * (along heading).2 := by
  rcases chained.passes ends ascends member with
    listed | ⟨above, aboveListed, below, belowListed, left, after, before⟩
  · exact ⟨point, 0, le_rfl, subset_spannedBy K _ (cast_mem_places listed), by simp, by simp⟩
  · have length : 0 < above.reach heading - below.reach heading :=
      sub_pos.mpr (after.trans before)
    have total : (point.reach heading - below.reach heading) +
        (above.reach heading - point.reach heading) =
          above.reach heading - below.reach heading := by
      ring
    refine ⟨.between (point.reach heading - below.reach heading)
      (above.reach heading - point.reach heading) above below,
      area below above point / (above.reach heading - below.reach heading),
      div_nonneg left length.le, ?_, ?_, ?_⟩
    · apply between_mem (convex_spannedBy K _) (sub_pos.mpr after).le (sub_pos.mpr before).le
      · exact total.symm ▸ length
      · exact subset_spannedBy K _ (cast_mem_places aboveListed)
      · exact subset_spannedBy K _ (cast_mem_places belowListed)
    · have identity := reach_interpolate heading (1, 0) below above point
      simp only [reach_right, dot_right] at identity
      rw [Point.between, total, div_mul_eq_mul_div, ← add_div, eq_div_iff length.ne']
      linarith
    · have identity := reach_interpolate heading (0, 1) below above point
      simp only [reach_up, dot_up] at identity
      rw [Point.between, total, div_mul_eq_mul_div, ← add_div, eq_div_iff length.ne']
      linarith

/-- A point between its feet on two sides lies in every convex set that holds them. -/
theorem mem_of_feet {set : Set (K × K)} (convex : Convex K set) {foot top : Point Rat}
    {rise drop : Rat} {direction : Rat × Rat} (riseNonneg : 0 ≤ rise) (dropNonneg : 0 ≤ drop)
    (footMember : foot.cast K ∈ set) (topMember : top.cast K ∈ set)
    (riseX : point.x = foot.x + rise * direction.1) (riseY : point.y = foot.y + rise * direction.2)
    (dropX : point.x = top.x + drop * -direction.1)
    (dropY : point.y = top.y + drop * -direction.2) : point.cast K ∈ set := by
  obtain ⟨x, y⟩ := point
  rcases (add_nonneg dropNonneg riseNonneg).eq_or_lt' with level | apart
  · obtain rfl : rise = 0 := by linarith
    rw [zero_mul, add_zero] at riseX riseY
    obtain ⟨footX, footY⟩ := foot
    obtain rfl : x = footX := riseX
    obtain rfl : y = footY := riseY
    exact footMember
  · have same : (⟨x, y⟩ : Point Rat) = .between drop rise foot top := by
      rw [Point.between, Point.mk.injEq, eq_div_iff apart.ne', eq_div_iff apart.ne']
      constructor
      · linear_combination drop * riseX + rise * dropX
      · linear_combination drop * riseY + rise * dropY
    rw [same]
    exact between_mem convex dropNonneg riseNonneg apart footMember topMember

end Convex

/-! ## The hull -/

section Outlined

variable {K : Type} [Field K] [LinearOrder K] [IsStrictOrderedRing K] {low high : Point Rat}
  {middle back : List (Point Rat)} (outlines : Outlines heading points low high middle back)

include outlines

/-- No point lies right of a step of the walk along both chains. -/
theorem Outlines.supports :
    (walk low high middle back : Cycle (Point Rat)).Chain fun first second =>
      ∀ other ∈ points, 0 ≤ area first second other := by
  have there := List.isChain_reverse.mpr outlines.lower.supports
  have andBack := List.isChain_reverse.mpr outlines.upper.supports
  simp only [List.reverse_cons, List.reverse_append, List.reverse_nil, List.nil_append,
    List.cons_append, List.mem_reverse] at there andBack
  rw [walk, Cycle.chain_coe_cons, List.append_assoc, List.cons_append]
  exact List.isChain_cons_split.mpr ⟨there, andBack⟩

theorem Outlines.exists_exposed (member : point ∈ walk low high middle back) :
    ∃ normal, Exposed normal points point := by
  rcases mem_walk_iff.mp member with below | above
  · exact outlines.lower.exists_exposed outlines.last.symm outlines.ascends below
  · obtain ⟨normal, exposed⟩ := outlines.upper.exists_exposed outlines.lastBack.symm
      outlines.ascends.reverse above
    exact ⟨normal, fun other listed => exposed other (List.mem_reverse.mpr listed)⟩

/-- Every point lies in the convex set around the walk. -/
theorem Outlines.cast_mem_spannedBy (member : point ∈ points) :
    point.cast K ∈ spannedBy K (places K (walk low high middle back)) := by
  obtain ⟨foot, rise, riseNonneg, footInside, riseX, riseY⟩ :=
    outlines.lower.exists_foot (K := K) outlines.last.symm outlines.ascends member
  obtain ⟨top, drop, dropNonneg, topInside, dropX, dropY⟩ :=
    outlines.upper.exists_foot (K := K) outlines.lastBack.symm outlines.ascends.reverse
      (List.mem_reverse.mpr member)
  rw [along_neg] at dropX dropY
  apply mem_of_feet (convex_spannedBy K _) riseNonneg dropNonneg _ _ riseX riseY dropX dropY
  · apply spannedBy_mono K (places_mono _) footInside
    exact fun corner listed => mem_walk_iff.mpr (.inl listed)
  · apply spannedBy_mono K (places_mono _) topInside
    exact fun corner listed => mem_walk_iff.mpr (.inr listed)

theorem Outlines.spannedBy_eq :
    spannedBy K (places K points) = spannedBy K (places K (walk low high middle back)) := by
  apply Set.Subset.antisymm
  · apply spannedBy_subset K _ (convex_spannedBy K _)
    rintro _ ⟨point, member, rfl⟩
    exact outlines.cast_mem_spannedBy member
  · exact spannedBy_mono K (places_mono outlines.encloses.within)

/-- The corners of the walk are the extreme points. -/
theorem Outlines.extremePoints_eq : (spannedBy K (places K points)).extremePoints K =
    places K (walk low high middle back) := by
  apply Set.Subset.antisymm
  · rw [outlines.spannedBy_eq]
    exact extremePoints_spannedBy_subset K _
  · rintro _ ⟨corner, member, rfl⟩
    obtain ⟨normal, exposed⟩ := outlines.exists_exposed member
    exact exposed.mem_extremePoints (outlines.encloses.within corner member)

/-- The walk along points on a line only has its ends. -/
theorem Outlines.walk_of_flat (flat : ∀ first ∈ points, ∀ second ∈ points, ∀ third ∈ points,
    area first second third = 0) : walk low high middle back = [low, high] := by
  have lowMember : low ∈ points := List.mem_of_head? outlines.first
  have highMember : high ∈ points := List.mem_of_getLast? outlines.last
  have straight : middle = [] := by
    apply List.eq_nil_iff_forall_not_mem.mpr
    intro corner member
    have listed : corner ∈ points := outlines.lower.within corner (by simp [member])
    have turns := outlines.lower_spans.turns_at member
    exact turns.ne' (flat low lowMember corner listed high highMember)
  have straightBack : back = [] := by
    apply List.eq_nil_iff_forall_not_mem.mpr
    intro corner member
    have listed := List.mem_reverse.mp (outlines.upper.within corner (by simp [member]))
    have turns := outlines.upper_spans.turns_at member
    exact turns.ne' (flat high highMember corner listed low lowMember)
  rw [walk, straight, straightBack]
  rfl

end Outlined

section Hull

variable {K : Type} [Field K] [LinearOrder K] [IsStrictOrderedRing K]

/-- Points on a line span no area. -/
theorem area_of_collinear (collinear : Collinear K (places K points))
    {first second third : Point Rat} (firstMember : first ∈ points) (secondMember : second ∈ points)
    (thirdMember : third ∈ points) : area first second third = 0 := by
  obtain ⟨direction, along⟩ :=
    (collinear_iff_of_mem (cast_mem_places firstMember)).mp collinear
  obtain ⟨near, secondPlace⟩ := along _ (cast_mem_places secondMember)
  obtain ⟨far, thirdPlace⟩ := along _ (cast_mem_places thirdMember)
  have secondX : (second.x : K) = near * direction.1 + first.x := congrArg Prod.fst secondPlace
  have secondY : (second.y : K) = near * direction.2 + first.y := congrArg Prod.snd secondPlace
  have thirdX : (third.x : K) = far * direction.1 + first.x := congrArg Prod.fst thirdPlace
  have thirdY : (third.y : K) = far * direction.2 + first.y := congrArg Prod.snd thirdPlace
  have flat : (area first second third : K) = 0 := by
    rw [area]
    push_cast
    rw [secondX, secondY, thirdX, thirdY]
    ring
  exact_mod_cast flat

/-- The hull of points of which two differ lists the extreme points of the convex set around
them once each, the first in the order of the coordinates in front.  It turns left at any three
of its points, no point lies right of one of its steps, and around points on a line it has
their ends only. -/
theorem convexHull_lists_extreme_points (K : Type) [Field K] [LinearOrder K]
    [IsStrictOrderedRing K] {points : List (Point Rat)}
    (different : ∃ left ∈ points, ∃ right ∈ points, left ≠ right) :
    ∃ low rest, convexHull points = .ok (low :: rest) ∧ (low :: rest).Nodup ∧
      (∀ corner ∈ low :: rest, corner ∈ points) ∧
      (spannedBy K (places K points)).extremePoints K = places K (low :: rest) ∧
      (∀ point ∈ points, low.key ≤ point.key) ∧
      (∀ shift, ((low :: rest).rotate shift).Triplewise fun first second third =>
        0 < area first second third) ∧
      ((low :: rest : List (Point Rat)) : Cycle (Point Rat)).Chain (fun first second =>
        ∀ other ∈ points, 0 ≤ area first second other) ∧
      (Collinear K (places K points) → ∃ high, rest = [high] ∧
        ∀ point ∈ points, point.cast K ∈ segment K (low.cast K) (high.cast K)) := by
  obtain ⟨ordered, heading, low, high, middle, back, permutation, keys, outlines, result⟩ :=
    convexHull_outlines different
  have encloses := outlines.encloses.of_perm permutation
  refine ⟨low, _, result, encloses.nodup, encloses.within, ?_, ?_, ?_, ?_, ?_⟩
  · rw [← places_perm permutation]
    exact outlines.extremePoints_eq
  · intro point member
    obtain ⟨later, rfl⟩ := List.head?_eq_some_iff.mp outlines.first
    rcases List.mem_cons.mp (permutation.mem_iff.mpr member) with rfl | behind
    · exact le_rfl
    · exact (List.pairwise_cons.mp keys).1 point behind
  · apply triplewise_rotate _ encloses.turns
    intro first second third left
    rwa [area_rotate]
  · have supports := outlines.supports
    simp only [permutation.mem_iff] at supports
    exact supports
  · intro collinear
    have flat : ∀ first ∈ ordered, ∀ second ∈ ordered, ∀ third ∈ ordered,
        area first second third = 0 := by
      intro first firstMember second secondMember third thirdMember
      rw [← places_perm permutation] at collinear
      exact area_of_collinear collinear firstMember secondMember thirdMember
    have ends := outlines.walk_of_flat flat
    refine ⟨high, (List.cons.inj ends).2, fun point member => ?_⟩
    have inside := outlines.cast_mem_spannedBy (K := K) (permutation.mem_iff.mpr member)
    rwa [ends, places_pair, spannedBy_pair] at inside

/-- Repeated points, and points on a side of a triangle, are not on its hull. -/
theorem triangle_keeps_three_corners :
    convexHull [⟨1, 1⟩, ⟨0, 0⟩, ⟨2, 0⟩, ⟨1, 0⟩, ⟨0, 0⟩, ⟨0, 2⟩, ⟨2, 0⟩] =
        .ok [⟨0, 0⟩, ⟨2, 0⟩, (⟨0, 2⟩ : Point Rat)] ∧
      (spannedBy Rat (places Rat
        [⟨1, 1⟩, ⟨0, 0⟩, ⟨2, 0⟩, ⟨1, 0⟩, ⟨0, 0⟩, ⟨0, 2⟩, ⟨2, 0⟩])).extremePoints Rat =
          places Rat [⟨0, 0⟩, ⟨2, 0⟩, ⟨0, 2⟩] := by
  let points : List (Point Rat) := [⟨1, 1⟩, ⟨0, 0⟩, ⟨2, 0⟩, ⟨1, 0⟩, ⟨0, 0⟩, ⟨0, 2⟩, ⟨2, 0⟩]
  have run : convexHull points = .ok [⟨0, 0⟩, ⟨2, 0⟩, ⟨0, 2⟩] := by
    decide +kernel
  have different : ∃ left ∈ points, ∃ right ∈ points, left ≠ right :=
    ⟨⟨1, 1⟩, by simp [points], ⟨0, 0⟩, by simp [points], by decide⟩
  obtain ⟨low, rest, result, _, _, extreme, _⟩ := convexHull_lists_extreme_points Rat different
  rw [Except.ok.inj (result.symm.trans run)] at extreme
  exact ⟨run, extreme⟩

end Hull

end Plane

end OptimalPlans
