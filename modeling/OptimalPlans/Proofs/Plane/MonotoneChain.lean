import OptimalPlans.Proofs.Plane.Turning

/-!
# The monotone chain

Whatever the heading along which the points ascend, the chain over them turns left at every
step and at every short cut, and no point lies right of it.  Points that are repeated leave
the chain as it is, once two different ones have been seen.  A point that beats all others in
a linear form is on the chain, or on the one that is built on the way back.
-/

namespace OptimalPlans.Plane

variable {heading : Rat × Rat} {seen points : List (Point Rat)} {point : Point Rat}

/-- A chain over the points seen, its last point on top: it starts where they do, any three
of its points turn left, and no point seen lies right of a step. -/
structure ChainOver (heading : Rat × Rat) (seen chain : List (Point Rat)) : Prop where
  within : ∀ point ∈ chain, point ∈ seen
  starts : chain.getLast? = seen.head?
  rises : chain.Pairwise fun above below => below.reach heading < above.reach heading
  turns : chain.Triplewise fun above middle below => 0 < area below middle above
  supports : chain.IsChain fun above below => ∀ point ∈ seen, 0 ≤ area below above point

theorem ChainOver.tail {top below : Point Rat} {rest : List (Point Rat)}
    (chained : ChainOver heading seen (top :: below :: rest)) :
    ChainOver heading seen (below :: rest) where
  within := fun point member => chained.within point (List.mem_cons_of_mem _ member)
  starts := by
    rw [← chained.starts, List.getLast?_cons_cons]
  rises := (List.pairwise_cons.mp chained.rises).2
  turns := (List.triplewise_cons.mp chained.turns).2
  supports := (List.isChain_cons_cons.mp chained.supports).2

/-- The first of ascending points is the lowest one. -/
theorem reach_le_of_head? {low : Point Rat}
    (ascends : Ascending heading seen) (first : seen.head? = some low)
    (member : point ∈ seen) :
    low.reach heading ≤ point.reach heading := by
  cases seen with
  | nil => cases member
  | cons start rest =>
      obtain rfl : start = low := Option.some.inj first
      rcases List.mem_cons.mp member with rfl | later
      · exact le_rfl
      · rcases (List.pairwise_cons.mp ascends).1 point later with rfl | further
        · exact le_rfl
        · exact further.le

/-- The last of ascending points is the highest one. -/
theorem eq_or_reach_lt {high : Point Rat}
    (ascends : Ascending heading seen) (last : seen.getLast? = some high)
    (member : point ∈ seen) :
    point = high ∨ point.reach heading < high.reach heading := by
  obtain ⟨front, rfl⟩ := List.getLast?_eq_some_iff.mp last
  rcases List.mem_append.mp member with earlier | top
  · exact (List.pairwise_append.mp ascends).2.2 point earlier high (by simp)
  · exact .inl (List.mem_singleton.mp top)

/-- A chain whose last step turns left toward a point ahead has the point on the left of all
its steps and short cuts. -/
theorem left_of_turn {top below : Point Rat} {rest : List (Point Rat)}
    (rises : (top :: below :: rest).Pairwise fun above below =>
      below.reach heading < above.reach heading)
    (turns : (top :: below :: rest).Triplewise fun above middle below =>
      0 < area below middle above)
    (ahead : top.reach heading < point.reach heading) (left : 0 < area below top point) :
    (top :: below :: rest).Pairwise fun above below => 0 < area below above point := by
  induction rest generalizing top below with
  | nil => simpa using left
  | cons next rest induction =>
      obtain ⟨underTop, belowRises⟩ := List.pairwise_cons.mp rises
      obtain ⟨topTurns, belowTurns⟩ := List.triplewise_cons.mp turns
      have underBelow := (List.pairwise_cons.mp belowRises).1
      have step : below.reach heading < top.reach heading :=
        underTop below List.mem_cons_self
      have bends : ∀ other ∈ next :: rest, 0 < area other below top :=
        (List.pairwise_cons.mp topTurns).1
      refine List.pairwise_cons.mpr ⟨fun other member => ?_, ?_⟩
      · rcases List.mem_cons.mp member with rfl | deeper
        · exact left
        · -- The short cut from the deeper point starts behind the step to the new one.
          have bent : 0 ≤ area below top other := by
            rw [area_rotate]
            exact (bends other deeper).le
          have behind := area_pos_behind step ahead (underTop other member) left bent
          rwa [area_rotate] at behind
      · refine induction belowRises belowTurns (step.trans ahead) ?_
        exact area_pos_ahead (underBelow next List.mem_cons_self) step ahead
          (bends next List.mem_cons_self) left

/-- Dropping points from a chain until it turns left toward a new point leaves a chain, and
no point seen lies right of the step to the new one. -/
theorem ChainOver.dropTurns_eq_ok
    (ascends : Ascending heading seen)
    (ahead : ∀ other ∈ seen, other.reach heading < point.reach heading)
    {top : Point Rat} {rest : List (Point Rat)}
    (chained : ChainOver heading seen (top :: rest))
    (above : ∀ other ∈ seen, top.reach heading ≤ other.reach heading →
      0 ≤ area top point other) :
    ∃ next kept, dropTurns point (top :: rest) = .ok (next :: kept) ∧
      ChainOver heading seen (next :: kept) ∧
      ((next :: kept).Pairwise fun above below => 0 < area below above point) ∧
      ∀ other ∈ seen, 0 ≤ area next point other := by
  induction rest generalizing top with
  | nil =>
      refine ⟨top, [], rfl, chained, List.pairwise_singleton _ _, fun other member => ?_⟩
      have lowest := reach_le_of_head? ascends chained.starts.symm member
      exact above other member lowest
  | cons below rest induction =>
      have step : below.reach heading < top.reach heading :=
        (List.pairwise_cons.mp chained.rises).1 below List.mem_cons_self
      have topAhead := ahead top (chained.within top List.mem_cons_self)
      have leftOfStep := (List.isChain_cons_cons.mp chained.supports).1
      by_cases drops : area below top point ≤ 0
      · obtain ⟨next, kept, result, known⟩ := induction chained.tail fun other member onwards =>
          area_nonneg_of_short_cut step (step.trans topAhead) onwards drops
            (leftOfStep other member)
        refine ⟨next, kept, ?_, known⟩
        simp [dropTurns, turn_eq_ok, drops, result]
      · have left : 0 < area below top point := not_le.mp drops
        have turned := left_of_turn chained.rises chained.turns topAhead left
        refine ⟨top, below :: rest, ?_, chained, turned, fun other member => ?_⟩
        · simp [dropTurns, turn_eq_ok, drops]
        · rcases le_or_gt (top.reach heading) (other.reach heading) with onwards | behind
          · exact above other member onwards
          · exact (area_pos_behind step topAhead behind left (leftOfStep other member)).le

theorem supports_append {chain : List (Point Rat)}
    (supports : chain.IsChain fun above below =>
      ∀ other ∈ seen, 0 ≤ area below above other)
    (left : chain.Pairwise fun above below => 0 < area below above point) :
    chain.IsChain fun above below => ∀ other ∈ seen ++ [point], 0 ≤ area below above other := by
  induction supports with
  | nil => exact List.isChain_nil
  | singleton _ => exact List.isChain_singleton _
  | cons_cons step _ induction =>
      obtain ⟨leftOfTop, leftOfRest⟩ := List.pairwise_cons.mp left
      refine List.isChain_cons_cons.mpr
        ⟨List.forall_mem_append.mpr ⟨step, ?_⟩, induction leftOfRest⟩
      exact List.forall_mem_singleton.mpr (leftOfTop _ List.mem_cons_self).le

/-- The next of ascending points extends the chain, if it is a new one. -/
theorem ChainOver.push {chain : List (Point Rat)} (chained : ChainOver heading seen chain)
    (ends : chain.head? = seen.getLast?) (ascends : Ascending heading seen)
    (ahead : ∀ other ∈ seen, other.reach heading < point.reach heading) :
    ∃ kept, dropTurns point chain = .ok kept ∧
      ChainOver heading (seen ++ [point]) (point :: kept) := by
  cases chain with
  | nil =>
      obtain rfl : seen = [] := List.getLast?_eq_none_iff.mp ends.symm
      exact ⟨[], rfl, by simp, rfl, List.pairwise_singleton _ _, List.triplewise_singleton _ _,
        List.isChain_singleton _⟩
  | cons top rest =>
      have above : ∀ other ∈ seen, top.reach heading ≤ other.reach heading →
          0 ≤ area top point other := by
        intro other member onwards
        rcases eq_or_reach_lt ascends ends.symm member with rfl | lower
        · rw [area_returns]
        · exact absurd onwards (not_le.mpr lower)
      obtain ⟨next, kept, result, keptChained, left, leftOfNew⟩ :=
        chained.dropTurns_eq_ok ascends ahead above
      refine ⟨next :: kept, result, ?_, ?_, ?_, ?_, ?_⟩
      · exact List.forall_mem_cons.mpr ⟨by simp, fun other member =>
          List.mem_append_left _ (keptChained.within other member)⟩
      · have nonempty : seen ≠ [] := List.ne_nil_of_mem
          (keptChained.within next List.mem_cons_self)
        rw [List.getLast?_cons_cons, keptChained.starts, List.head?_append_of_ne_nil _ nonempty]
      · exact List.pairwise_cons.mpr
          ⟨fun other member => ahead other (keptChained.within other member), keptChained.rises⟩
      · exact List.triplewise_cons.mpr ⟨left, keptChained.turns⟩
      · refine List.isChain_cons_cons.mpr
          ⟨List.forall_mem_append.mpr ⟨leftOfNew, by simp⟩, ?_⟩
        exact supports_append keptChained.supports left

/-! ## Repeated points -/

/-- A chain over the points seen is one over them and a repeated point. -/
theorem ChainOver.repeated {chain : List (Point Rat)} (chained : ChainOver heading seen chain)
    (member : point ∈ seen) : ChainOver heading (seen ++ [point]) chain where
  within := fun other listed => List.mem_append_left _ (chained.within other listed)
  starts := by
    rw [chained.starts, List.head?_append_of_ne_nil _ (List.ne_nil_of_mem member)]
  rises := chained.rises
  turns := chained.turns
  supports := by
    apply chained.supports.imp
    intro above below left
    exact List.forall_mem_append.mpr ⟨left, List.forall_mem_singleton.mpr (left point member)⟩

/-- What a scan holds of a chain: the chain, or its only point twice, which a scan does not
notice before it meets another point. -/
inductive ScanHolds : List (Point Rat) → List (Point Rat) → Prop
  | exactly (chain : List (Point Rat)) : ScanHolds chain chain
  | twice (point : Point Rat) : ScanHolds [point, point] [point]

/-- The point in its way is all that a repeated point drops from a chain. -/
theorem ChainOver.dropTurns_repeated {below : Point Rat} {rest : List (Point Rat)}
    (chained : ChainOver heading seen (point :: below :: rest)) :
    dropTurns point (point :: below :: rest) = .ok (below :: rest) := by
  have stays : dropTurns point (below :: rest) = .ok (below :: rest) := by
    cases rest with
    | nil => rfl
    | cons next rest =>
        have turned : 0 < area next below point :=
          (List.pairwise_cons.mp (List.triplewise_cons.mp chained.turns).1).1 next
            List.mem_cons_self
        simp [dropTurns, turn_eq_ok, turned]
  simpa [dropTurns, turn_eq_ok] using stays

theorem dropTurns_twice (other point : Point Rat) :
    dropTurns point [other, other] = .ok [other] := by
  simp [dropTurns, turn_eq_ok]

/-- The next of ascending points, new or repeated, leaves the scan with a chain. -/
theorem ScanHolds.push {stack chain : List (Point Rat)} (holds : ScanHolds stack chain)
    (chained : ChainOver heading seen chain) (ends : chain.head? = seen.getLast?)
    (ascends : Ascending heading (seen ++ [point])) :
    ∃ kept next, dropTurns point stack = .ok kept ∧ ScanHolds (point :: kept) next ∧
      ChainOver heading (seen ++ [point]) next ∧ next.head? = some point := by
  obtain ⟨seenAscends, _, before⟩ := List.pairwise_append.mp ascends
  by_cases again : seen.getLast? = some point
  · have member := List.mem_of_getLast? again
    have repeated := chained.repeated member
    have top := ends.trans again
    cases holds with
    | twice other =>
        obtain rfl := Option.some.inj top
        exact ⟨[other], [other], dropTurns_twice other other, .twice other, repeated, rfl⟩
    | exactly =>
        obtain ⟨rest, rfl⟩ := List.head?_eq_some_iff.mp top
        cases rest with
        | nil => exact ⟨[point], [point], rfl, .twice point, repeated, rfl⟩
        | cons below rest =>
            exact ⟨below :: rest, point :: below :: rest, chained.dropTurns_repeated,
              .exactly _, repeated, rfl⟩
  · have ahead : ∀ other ∈ seen, other.reach heading < point.reach heading := by
      intro other member
      have nonempty := List.ne_nil_of_mem member
      have last := List.getLast?_eq_some_getLast nonempty
      have order := before _ (List.getLast_mem nonempty) point (List.mem_singleton_self point)
      have further := order.resolve_left fun same => again (last.trans (congrArg some same))
      rcases eq_or_reach_lt seenAscends last member with rfl | lower
      · exact further
      · exact lower.trans further
    obtain ⟨kept, result, next⟩ := chained.push ends seenAscends ahead
    cases holds with
    | exactly => exact ⟨kept, point :: kept, result, .exactly _, next, rfl⟩
    | twice other =>
        obtain rfl := Except.ok.inj result
        exact ⟨[other], [point, other], dropTurns_twice other point, .exactly _, next, rfl⟩

/-- The chain over ascending points of which two differ ends in the last one. -/
theorem chain_eq_ok
    (ascends : Ascending heading points) (different : points.head? ≠ points.getLast?) :
    ∃ stack, chain points = .ok stack ∧ ChainOver heading points stack ∧
      stack.head? = points.getLast? := by
  have scanned : ∃ stack, chain points = .ok stack ∧ ∃ chain, ScanHolds stack chain ∧
      ChainOver heading points chain ∧ chain.head? = points.getLast? := by
    unfold chain
    apply foldlM_prefix_invariant fun (seen stack : List (Point Rat)) =>
      ∃ chain, ScanHolds stack chain ∧ ChainOver heading seen chain ∧ chain.head? = seen.getLast?
    · exact ⟨[], .exactly [], ⟨by simp, rfl, List.Pairwise.nil, List.Triplewise.nil,
        List.isChain_nil⟩, rfl⟩
    · rintro seen point stack opens ⟨chain, holds, chained, ends⟩
      obtain ⟨kept, next, result, holdsNext, chainedNext, top⟩ :=
        holds.push chained ends (ascends.sublist opens.sublist)
      exact ⟨point :: kept, by simp [result], next, holdsNext, chainedNext, by simp [top]⟩
  obtain ⟨stack, result, _, holds, chained, ends⟩ := scanned
  cases holds with
  | exactly => exact ⟨stack, result, chained, ends⟩
  | twice point => exact absurd (chained.starts.symm.trans ends) different

/-! ## Points that no other one beats -/

/-- A point that is further than all others along a normal. -/
def Exposed (normal : Rat × Rat) (points : List (Point Rat)) (point : Point Rat) : Prop :=
  ∀ other ∈ points, other ≠ point → other.reach normal < point.reach normal

theorem eq_of_reach_eq {left right : Point Rat}
    (ascends : Ascending heading points) (leftMember : left ∈ points)
    (rightMember : right ∈ points)
    (same : left.reach heading = right.reach heading) : left = right := by
  let separated : Point Rat → Point Rat → Prop := fun left right =>
    left.reach heading = right.reach heading → left = right
  have forwards : points.Pairwise separated := ascends.imp fun order same =>
    order.resolve_right fun less => less.ne same
  have backwards : points.Pairwise (flip separated) := ascends.imp fun order same =>
    (order.resolve_right fun less => less.ne' same).symm
  exact forwards.forall_of_forall_of_flip (fun _ _ _ => rfl) backwards leftMember
    rightMember same

/-- Between the heights of its ends a chain passes every height, at a point or in a step. -/
theorem exists_step {linked : Point Rat → Point Rat → Prop} {top : Point Rat}
    {rest : List (Point Rat)} (steps : (top :: rest).IsChain linked)
    (under : point.reach heading ≤ top.reach heading)
    (beyond : ∀ low ∈ (top :: rest).getLast?, low.reach heading ≤ point.reach heading) :
    (∃ level ∈ top :: rest, level.reach heading = point.reach heading) ∨
      ∃ above ∈ top :: rest, ∃ below ∈ top :: rest, linked above below ∧
        below.reach heading < point.reach heading ∧
        point.reach heading < above.reach heading := by
  induction rest generalizing top with
  | nil => exact .inl ⟨top, List.mem_cons_self, le_antisymm (beyond top rfl) under⟩
  | cons next rest induction =>
      obtain ⟨step, laterSteps⟩ := List.isChain_cons_cons.mp steps
      rcases le_or_gt (point.reach heading) (next.reach heading) with lower | higher
      · rcases induction laterSteps lower (by simpa using beyond) with
          ⟨level, member, same⟩ | ⟨above, aboveMember, below, belowMember, known⟩
        · exact .inl ⟨level, List.mem_cons_of_mem _ member, same⟩
        · exact .inr ⟨above, List.mem_cons_of_mem _ aboveMember, below,
            List.mem_cons_of_mem _ belowMember, known⟩
      · rcases under.eq_or_lt with level | under
        · exact .inl ⟨top, List.mem_cons_self, level.symm⟩
        · exact .inr ⟨top, List.mem_cons_self, next, by simp, step, higher, under⟩

/-- A chain passes every point seen, or leaves it on the left of a step. -/
theorem ChainOver.passes {chain : List (Point Rat)} (chained : ChainOver heading points chain)
    (ends : chain.head? = points.getLast?) (ascends : Ascending heading points)
    (member : point ∈ points) :
    point ∈ chain ∨ ∃ above ∈ chain, ∃ below ∈ chain, 0 ≤ area below above point ∧
      below.reach heading < point.reach heading ∧ point.reach heading < above.reach heading := by
  cases chain with
  | nil =>
      obtain rfl : points = [] := List.getLast?_eq_none_iff.mp ends.symm
      cases member
  | cons top rest =>
      have under : point.reach heading ≤ top.reach heading := by
        rcases eq_or_reach_lt ascends ends.symm member with rfl | lower
        · exact le_rfl
        · exact lower.le
      have beyond : ∀ low ∈ (top :: rest).getLast?,
          low.reach heading ≤ point.reach heading := by
        intro low lowest
        exact reach_le_of_head? ascends (chained.starts.symm.trans lowest) member
      rcases exists_step chained.supports under beyond with
        ⟨level, listed, same⟩ | ⟨above, aboveListed, below, belowListed, left, after, before⟩
      · left
        rwa [← eq_of_reach_eq ascends (chained.within level listed) member same]
      · right
        exact ⟨above, aboveListed, below, belowListed, left point member, after, before⟩

/-- A point that is exposed to the right of the heading is on the chain. -/
theorem ChainOver.mem_of_exposed {chain : List (Point Rat)} {normal : Rat × Rat}
    (chained : ChainOver heading points chain) (ends : chain.head? = points.getLast?)
    (ascends : Ascending heading points)
    (member : point ∈ points) (exposed : Exposed normal points point)
    (right : dot normal (along heading) ≤ 0) : point ∈ chain := by
  rcases chained.passes ends ascends member with
    listed | ⟨above, aboveListed, below, belowListed, left, after, before⟩
  · exact listed
  · have belowLess := exposed below (chained.within below belowListed)
      (by rintro rfl; exact lt_irrefl _ after)
    have aboveLess := exposed above (chained.within above aboveListed)
      (by rintro rfl; exact lt_irrefl _ before)
    have most := reach_le_max after before right left
    exact absurd most (not_le.mpr (max_lt belowLess aboveLess))

end OptimalPlans.Plane
