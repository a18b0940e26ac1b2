import OptimalPlans.Proofs.Transport.ForestWalk
import OptimalPlans.Proofs.Transport.LoopBalance
import OptimalPlans.Proofs.Transport.SpanningBasis

/-!
# Shape of loops

The loop that a cell closes with a forest is settled by the forest alone.  Its signs
alternate, it turns from row to column at every cell and closes with its last one, and
each line that it meets gains in one cell and loses in one cell.  No loop is found exactly
where the forest does not join the lines of the entering cell.
-/

namespace OptimalPlans.Transport

/-! ## Alternating signs along a walk -/

/-- The sign of the cell that follows a line in a loop. -/
def Line.sign : Line → Sign
  | .row _ => .minus
  | .col _ => .plus

theorem Cell.Links.sign_flip {cell : Cell} {near far : Line} (links : cell.Links near far) :
    near.sign.flip = far.sign := by
  cases links <;> rfl

/-- A step of a loop and the next one: the sign changes, and the two cells share the row
where the first gains and the column where it loses. -/
structure LoopCell.TurnsTo (step next : LoopCell) : Prop where
  sign : next.sign = step.sign.flip
  row : step.sign = .plus → step.cell.row = next.cell.row
  col : step.sign = .minus → step.cell.col = next.cell.col

theorem Cell.Links.turnsTo {cell other : Cell} {near far last : Line}
    (links : cell.Links near far) (onward : other.Links far last) :
    LoopCell.TurnsTo ⟨cell, near.sign⟩ ⟨other, far.sign⟩ := by
  have shared := Line.touches_iff.mp ((onward.touches_iff far).mpr (.inl rfl))
  cases links with
  | across => exact ⟨rfl, nofun, fun _ => by simpa using shared⟩
  | back => exact ⟨rfl, fun _ => by simpa using shared, nofun⟩

namespace Leads

variable {before after cells : List Cell} {start middle stop : Line}

theorem alternate_append (leads : Leads start before middle) (after : List Cell) :
    alternate start.sign (before ++ after) =
      alternate start.sign before ++ alternate middle.sign after := by
  induction before generalizing start with
  | nil =>
      cases leads
      rfl
  | cons cell before induction =>
      obtain ⟨next, links, later⟩ := cons_iff.mp leads
      simp only [List.cons_append, alternate, links.sign_flip, induction later]

theorem isChain_alternate (leads : Leads start cells stop) :
    (alternate start.sign cells).IsChain LoopCell.TurnsTo := by
  induction cells generalizing start with
  | nil => exact List.isChain_nil
  | cons cell cells induction =>
      obtain ⟨next, links, later⟩ := cons_iff.mp leads
      rw [alternate, links.sign_flip]
      refine List.isChain_cons.mpr ⟨fun step found => ?_, induction later⟩
      cases cells with
      | nil => cases found
      | cons other others =>
          obtain rfl := Option.some.inj found
          obtain ⟨_, otherLinks, _⟩ := cons_iff.mp later
          exact links.turnsTo otherLinks

/-- A walk has an even number of cells when it ends on the side where it starts. -/
theorem even_length_iff (leads : Leads start cells stop) :
    Even cells.length ↔ start.sign = stop.sign := by
  induction cells generalizing start with
  | nil =>
      cases leads
      simp
  | cons cell cells induction =>
      obtain ⟨next, links, later⟩ := cons_iff.mp leads
      rw [List.length_cons, Nat.even_add_one, induction later, ← links.sign_flip]
      cases start.sign <;> cases stop.sign <;> simp [Sign.flip]

end Leads

/-! ## Loops -/

/-- How often a loop meets a line with a sign. -/
def meetings (loop : List LoopCell) (sign : Sign) (line : Line) : Nat :=
  loop.countP fun step => step.sign = sign && line.touches step.cell

/-- The loops that a cell closes with a basis. -/
structure IsLoop (basis : List Cell) (entering : Cell) (loop : List LoopCell) : Prop where
  opens : loop.head? = some ⟨entering, .plus⟩
  basic : ∀ step ∈ loop.tail, step.cell ∈ basis
  even : Even loop.length
  four_le : 4 ≤ loop.length
  nodup : (loop.map (·.cell)).Nodup
  /-- The last step turns to the first one again. -/
  turns : (loop ++ loop.take 1).IsChain LoopCell.TurnsTo
  balanced : ∀ line : Line, (∃ step ∈ loop, line.touches step.cell = true) →
    ∀ sign, meetings loop sign line = 1

theorem meetings_cons (step : LoopCell) (rest : List LoopCell) (sign : Sign) (line : Line) :
    meetings (step :: rest) sign line = meetings rest sign line +
      if step.sign = sign ∧ line.touches step.cell = true then 1 else 0 := by
  simp [meetings, List.countP_cons]

theorem meetings_plus_add_minus (loop : List LoopCell) (line : Line) :
    meetings loop .plus line + meetings loop .minus line =
      (loop.map (·.cell)).countP line.touches := by
  induction loop with
  | nil => rfl
  | cons step rest induction =>
      rw [List.map_cons, List.countP_cons, ← induction, meetings_cons, meetings_cons]
      cases step.sign <;> simp only [reduceCtorEq, true_and, false_and, if_false] <;> omega

/-- The gains and losses of a loop at a line, as a signed sum. -/
theorem meetings_plus_sub_minus (loop : List LoopCell) (line : Line) :
    (meetings loop .plus line : Int) - meetings loop .minus line =
      signedSum loop fun cell => if line.touches cell then 1 else 0 := by
  induction loop with
  | nil => rfl
  | cons step rest induction =>
      rw [signedSum_cons, ← induction, meetings_cons, meetings_cons]
      cases step.sign <;>
        simp only [reduceCtorEq, true_and, false_and, if_false, Sign.factor] <;>
        push_cast <;> ring

namespace ClosesLoop

variable {basis cells : List Cell} {entering : Cell}

/-- The entering cell and its walk come back to the column of the entering cell. -/
theorem returns (closes : ClosesLoop basis entering cells) :
    Leads (.col entering.col) (entering :: cells) (.col entering.col) :=
  .fromCol closes.leads

/-- A loop meets a line at most twice. -/
theorem countP_touches_le (closes : ClosesLoop basis entering cells)
    (loopless : Loopless basis) (line : Line) :
    (entering :: cells).countP line.touches ≤ 2 := by
  have bound := closes.leads.countP_touches_le loopless closes.within closes.nodup line
  rw [List.countP_cons, Cell.Links.across.count_touches]
  omega

/-- A loop gains at every line as often as it loses there. -/
theorem meetings_eq (closes : ClosesLoop basis entering cells) (line : Line) :
    meetings (loopAlong entering cells) .plus line =
      meetings (loopAlong entering cells) .minus line := by
  have difference := meetings_plus_sub_minus (loopAlong entering cells) line
  rw [closes.signedSum_touches line] at difference
  omega

/-- A loop gains once and loses once at every line that it meets. -/
theorem meetings_eq_one (closes : ClosesLoop basis entering cells)
    (loopless : Loopless basis) {line : Line}
    (meets : ∃ step ∈ loopAlong entering cells, line.touches step.cell = true)
    (sign : Sign) : meetings (loopAlong entering cells) sign line = 1 := by
  have walked : (loopAlong entering cells).map (·.cell) = entering :: cells :=
    map_cell_alternate .plus (entering :: cells)
  have total := meetings_plus_add_minus (loopAlong entering cells) line
  have some : 0 < ((loopAlong entering cells).map (·.cell)).countP line.touches := by
    obtain ⟨step, member, touches⟩ := meets
    exact List.countP_pos_iff.mpr ⟨step.cell, List.mem_map_of_mem member, touches⟩
  have most := closes.countP_touches_le loopless line
  have equal := closes.meetings_eq line
  rw [walked] at total some
  cases sign <;> omega

theorem four_le_length (closes : ClosesLoop basis entering cells)
    (absent : entering ∉ basis) : 4 ≤ (entering :: cells).length := by
  have even : Even (entering :: cells).length := closes.returns.even_length_iff.mpr rfl
  have more : cells.length ≠ 1 := by
    intro single
    obtain ⟨cell, rfl⟩ := List.length_eq_one_iff.mp single
    obtain ⟨leads, within, _⟩ := closes
    cases leads with
    | fromRow last =>
        cases last
        exact absent (within (List.mem_singleton_self _))
  have some : cells.length ≠ 0 := by
    intro none
    rw [List.length_eq_zero_iff.mp none] at even
    simp at even
  rw [List.length_cons] at even ⊢
  obtain ⟨half, size⟩ := even
  omega

/-- A walk of a forest closes a loop with the entering cell. -/
theorem isLoop (closes : ClosesLoop basis entering cells) (loopless : Loopless basis)
    (absent : entering ∉ basis) : IsLoop basis entering (loopAlong entering cells) := by
  have length : (loopAlong entering cells).length = (entering :: cells).length := by
    rw [← map_cell_alternate .plus (entering :: cells), List.length_map]
    rfl
  refine ⟨rfl, ?_, ?_, ?_, closes.nodup_loopAlong absent, ?_, ?_⟩
  · exact fun step member => closes.within (cell_mem_of_mem_alternate member)
  · rw [length]
    exact closes.returns.even_length_iff.mpr rfl
  · rw [length]
    exact closes.four_le_length absent
  · have again : Leads (.col entering.col) (entering :: cells ++ [entering])
        (.row entering.row) := closes.returns.append (.fromCol (.nil _))
    have chain := again.isChain_alternate
    rwa [closes.returns.alternate_append] at chain
  · exact fun line meets => closes.meetings_eq_one loopless meets

end ClosesLoop

theorem loopThrough_eq_error_iff {basis : List Cell} {entering : Cell} {fault : Fault} :
    loopThrough basis entering = .error fault ↔
      fault = .unspannedCell entering.text ∧
        ¬ Joined basis (.row entering.row) (.col entering.col) := by
  rw [← shortestTrail_isSome_iff, loopThrough]
  cases shortestTrail basis (.row entering.row) (.col entering.col) <;> simp [eq_comm]

/-- A line that is joined to another one meets a cell. -/
theorem Joined.exists_touches {cells : List Cell} {left right : Line}
    (joined : Joined cells left right) (different : left ≠ right) :
    ∃ cell ∈ cells, left.touches cell = true := by
  by_contra none
  refine different ?_
  -- Being the line itself is carried by every cell, as none touches it.
  have carried : ∀ cell ∈ cells, left = .row cell.row ↔ left = .col cell.col := by
    intro cell member
    have untouched : ¬ (left = .row cell.row ∨ left = .col cell.col) := fun touches =>
      none ⟨cell, member, Line.touches_iff.mpr touches⟩
    tauto
  exact joined.carries carried rfl

/-- A cell outside a forest closes a loop unless the forest does not join its two lines,
as when one of them has no cell of the forest; then the loop is refused.  The loop runs
along the only shortest walk between the two lines, whichever way that is found. -/
theorem loopThrough_closes_or_refuses {basis : List Cell} {entering : Cell}
    (loopless : Loopless basis) (absent : entering ∉ basis) :
    (loopThrough basis entering = .error (.unspannedCell entering.text) ↔
      (∀ cell ∈ basis, cell.row ≠ entering.row) ∨
        (∀ cell ∈ basis, cell.col ≠ entering.col) ∨
        ¬ Joined basis (.row entering.row) (.col entering.col)) ∧
    (Joined basis (.row entering.row) (.col entering.col) →
      ∃ walk, loopThrough basis entering = .ok (loopAlong entering walk) ∧
        IsLoop basis entering (loopAlong entering walk) ∧
        ∀ other, ShortestWalk basis (.row entering.row) other (.col entering.col) ↔
          other = walk) := by
  constructor
  · rw [loopThrough_eq_error_iff]
    refine ⟨fun refused => .inr (.inr refused.2), fun reason => ⟨rfl, fun joined => ?_⟩⟩
    have different : Line.row entering.row ≠ .col entering.col := by simp
    rcases reason with rowless | colless | apart
    · obtain ⟨cell, member, touches⟩ := joined.exists_touches different
      exact rowless cell member (by simpa [Line.touches, eq_comm] using touches)
    · obtain ⟨cell, member, touches⟩ := joined.symm.exists_touches different.symm
      exact colless cell member (by simpa [Line.touches, eq_comm] using touches)
    · exact apart joined
  · intro joined
    obtain ⟨walk, found, closes⟩ := loopThrough_eq_ok joined
    exact ⟨walk, found, closes.isLoop loopless absent, fun other =>
      loopless.shortestWalk_iff closes.leads closes.within closes.nodup⟩

theorem staircase_closes_hexagon :
    ∃ walk,
      loopThrough [⟨0, 0⟩, ⟨0, 1⟩, ⟨1, 1⟩, ⟨1, 2⟩, ⟨2, 2⟩] ⟨2, 0⟩ =
        .ok (loopAlong ⟨2, 0⟩ walk) ∧
      IsLoop [⟨0, 0⟩, ⟨0, 1⟩, ⟨1, 1⟩, ⟨1, 2⟩, ⟨2, 2⟩] ⟨2, 0⟩ (loopAlong ⟨2, 0⟩ walk) ∧
      walk = [⟨2, 2⟩, ⟨1, 2⟩, ⟨1, 1⟩, ⟨0, 1⟩, ⟨0, 0⟩] := by
  let basis : List Cell := [⟨0, 0⟩, ⟨0, 1⟩, ⟨1, 1⟩, ⟨1, 2⟩, ⟨2, 2⟩]
  have accepted : acyclic basis = .ok basis := by cbv
  have joined : Joined basis (.row 2) (.col 0) := shortestTrail_isSome_iff.mp (by cbv)
  obtain ⟨walk, found, isLoop, _⟩ :=
    (loopThrough_closes_or_refuses (acyclic_eq_ok_iff.mp accepted).2.1
      (by decide : (⟨2, 0⟩ : Cell) ∉ basis)).2 joined
  have known : loopThrough basis ⟨2, 0⟩ =
      .ok (loopAlong ⟨2, 0⟩ [⟨2, 2⟩, ⟨1, 2⟩, ⟨1, 1⟩, ⟨0, 1⟩, ⟨0, 0⟩]) := by
    cbv
  refine ⟨walk, found, isLoop, ?_⟩
  have same := congrArg (List.map (·.cell)) (Except.ok.inj (found.symm.trans known))
  simpa [loopAlong, map_cell_alternate] using same

end OptimalPlans.Transport
