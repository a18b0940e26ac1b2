import OptimalPlans.Proofs.Transport.Shipment
import OptimalPlans.Proofs.Transport.TrailAdequacy
import OptimalPlans.Transport.Loop

/-!
# Balance of loops

The signs of a loop alternate along a walk from the row of the entering cell to its
column.  Whatever the prices of the lines, the signed prices of the cells of a loop add
up to nothing: every line is met once with each sign.  A shift changes the amount of a
cell by the signs with which the loop passes it.
-/

namespace OptimalPlans.Transport

/-- The sign as a number. -/
def Sign.factor : Sign → Int
  | .plus => 1
  | .minus => -1

@[simp] theorem Sign.factor_flip (sign : Sign) : sign.flip.factor = -sign.factor := by
  cases sign <;> rfl

/-- One for rows and minus one for columns. -/
def Line.side : Line → Int
  | .row _ => 1
  | .col _ => -1

theorem Line.side_mul_self (line : Line) : line.side * line.side = 1 := by
  cases line <;> rfl

/-! ## Alternating signs -/

theorem map_cell_alternate (sign : Sign) (cells : List Cell) :
    (alternate sign cells).map (·.cell) = cells := by
  induction cells generalizing sign with
  | nil => rfl
  | cons cell cells induction => simp [alternate, induction]

theorem cell_mem_of_mem_alternate {sign : Sign} {cells : List Cell} {step : LoopCell}
    (member : step ∈ alternate sign cells) : step.cell ∈ cells := by
  rw [← map_cell_alternate sign cells]
  exact List.mem_map_of_mem member

/-- The signed value of the cells of a loop. -/
def signedSum (loop : List LoopCell) (value : Cell → Int) : Int :=
  (loop.map fun step => step.sign.factor * value step.cell).sum

@[simp] theorem signedSum_nil (value : Cell → Int) : signedSum [] value = 0 := rfl

@[simp] theorem signedSum_cons (step : LoopCell) (rest : List LoopCell)
    (value : Cell → Int) :
    signedSum (step :: rest) value =
      step.sign.factor * value step.cell + signedSum rest value := by
  simp [signedSum]

theorem signedSum_add (loop : List LoopCell) (first second : Cell → Int) :
    signedSum loop (fun cell => first cell + second cell) =
      signedSum loop first + signedSum loop second := by
  simp only [signedSum, mul_add, List.sum_map_add]

theorem signedSum_of_zero {loop : List LoopCell} {value : Cell → Int}
    (zero : ∀ step ∈ loop, value step.cell = 0) : signedSum loop value = 0 := by
  apply List.sum_eq_zero
  intro part member
  obtain ⟨step, stepMember, rfl⟩ := List.mem_map.mp member
  rw [zero step stepMember, mul_zero]

/-- Along a walk with alternating signs the prices of inner lines cancel. -/
theorem signedSum_alternate {start stop : Line} {cells : List Cell}
    (leads : Leads start cells stop) (price : Line → Int) (sign : Sign) :
    signedSum (alternate sign cells)
        (fun cell => price (.row cell.row) + price (.col cell.col)) =
      sign.factor * (price start - start.side * stop.side * price stop) := by
  induction leads generalizing sign with
  | nil line =>
      rw [Line.side_mul_self, one_mul, sub_self, mul_zero]
      rfl
  | fromRow _ induction =>
      simp only [alternate, signedSum_cons, induction, Sign.factor_flip, Line.side]
      ring
  | fromCol _ induction =>
      simp only [alternate, signedSum_cons, induction, Sign.factor_flip, Line.side]
      ring

/-- The loop that a cell closes with a walk from its row to its column. -/
structure ClosesLoop (basis : List Cell) (entering : Cell) (cells : List Cell) :
    Prop where
  leads : Leads (.row entering.row) cells (.col entering.col)
  within : cells ⊆ basis
  nodup : cells.Nodup

/-- The entering cell gains, and the cells of the walk lose and gain in turn. -/
def loopAlong (entering : Cell) (cells : List Cell) : List LoopCell :=
  ⟨entering, .plus⟩ :: alternate .minus cells

theorem loopThrough_eq_ok {basis : List Cell} {entering : Cell}
    (joined : Joined basis (.row entering.row) (.col entering.col)) :
    ∃ cells, loopThrough basis entering = .ok (loopAlong entering cells) ∧
      ClosesLoop basis entering cells := by
  obtain ⟨cells, found⟩ :=
    Option.isSome_iff_exists.mp (shortestTrail_isSome_iff.mpr joined)
  obtain ⟨leads, within, nodup⟩ := shortestTrail_sound found
  exact ⟨cells, by simp [loopThrough, found, loopAlong], leads, within, nodup⟩

namespace ClosesLoop

variable {basis cells : List Cell} {entering : Cell}

/-- The prices of the lines cancel around a loop. -/
theorem signedSum_eq_zero (closes : ClosesLoop basis entering cells)
    (price : Line → Int) :
    signedSum (loopAlong entering cells)
      (fun cell => price (.row cell.row) + price (.col cell.col)) = 0 := by
  rw [loopAlong, signedSum_cons, signedSum_alternate closes.leads]
  simp only [Sign.factor, Line.side]
  ring

/-- A loop meets every line with both signs equally often. -/
theorem signedSum_touches (closes : ClosesLoop basis entering cells) (line : Line) :
    signedSum (loopAlong entering cells) (fun cell => if line.touches cell then 1 else 0) =
      0 := by
  have touched : (fun cell : Cell => if line.touches cell then (1 : Int) else 0) =
      fun cell => (if line = .row cell.row then 1 else 0) +
        if line = .col cell.col then 1 else 0 := by
    funext cell
    cases line <;> simp [Line.touches]
  rw [touched]
  exact closes.signedSum_eq_zero fun other => if line = other then 1 else 0

theorem exists_minus (closes : ClosesLoop basis entering cells) :
    ∃ step ∈ loopAlong entering cells, step.sign = .minus := by
  have leads := closes.leads
  cases cells with
  | nil => cases leads
  | cons first rest => exact ⟨⟨first, .minus⟩, by simp [loopAlong, alternate], rfl⟩

theorem mem_of_minus {step : LoopCell}
    (member : step ∈ loopAlong entering cells) (loses : step.sign = .minus) :
    step.cell ∈ cells := by
  rcases List.mem_cons.mp member with rfl | inner
  · cases loses
  · exact cell_mem_of_mem_alternate inner

theorem nodup_loopAlong (closes : ClosesLoop basis entering cells)
    (absent : entering ∉ basis) : ((loopAlong entering cells).map (·.cell)).Nodup := by
  rw [loopAlong, List.map_cons, map_cell_alternate]
  exact List.nodup_cons.mpr ⟨fun member => absent (closes.within member), closes.nodup⟩

end ClosesLoop

/-! ## The weight of a cell in a loop -/

/-- The change at a cell when one unit is shifted around a loop. -/
def loopWeight (loop : List LoopCell) (cell : Cell) : Int :=
  (loop.map fun step => if step.cell = cell then step.sign.factor else 0).sum

theorem loopWeight_nil (cell : Cell) : loopWeight [] cell = 0 := rfl

theorem loopWeight_cons (step : LoopCell) (rest : List LoopCell) (cell : Cell) :
    loopWeight (step :: rest) cell =
      (if step.cell = cell then step.sign.factor else 0) + loopWeight rest cell := by
  simp [loopWeight]

theorem loopWeight_of_absent {loop : List LoopCell} {cell : Cell}
    (absent : cell ∉ loop.map (·.cell)) : loopWeight loop cell = 0 := by
  induction loop with
  | nil => rfl
  | cons step rest induction =>
      simp only [List.map_cons, List.mem_cons, not_or] at absent
      rw [loopWeight_cons, if_neg (Ne.symm absent.1), induction absent.2, add_zero]

theorem loopWeight_of_mem {loop : List LoopCell} {step : LoopCell}
    (nodup : (loop.map (·.cell)).Nodup) (member : step ∈ loop) :
    loopWeight loop step.cell = step.sign.factor := by
  induction loop with
  | nil => cases member
  | cons first rest induction =>
      obtain ⟨absent, restNodup⟩ := List.nodup_cons.mp nodup
      rw [loopWeight_cons]
      rcases List.mem_cons.mp member with rfl | later
      · rw [if_pos rfl, loopWeight_of_absent absent, add_zero]
      · have different : first.cell ≠ step.cell := by
          intro same
          apply absent
          exact List.mem_map.mpr ⟨step, later, same.symm⟩
        rw [if_neg different, zero_add, induction restNodup later]

/-- Adds an amount on the gaining cells of a loop and takes it from the losing ones. -/
def replay (theta : Int) (loop : List LoopCell) (amount : Cell → Int) : Cell → Int :=
  loop.foldl (fun amount step =>
    Function.update amount step.cell (amount step.cell + theta * step.sign.factor)) amount

theorem replay_eq (theta : Int) (loop : List LoopCell) (amount : Cell → Int) (cell : Cell) :
    replay theta loop amount cell = amount cell + theta * loopWeight loop cell := by
  induction loop generalizing amount with
  | nil => simp [replay, loopWeight_nil]
  | cons step rest induction =>
      have later := induction
        (Function.update amount step.cell (amount step.cell + theta * step.sign.factor))
      rw [replay] at later ⊢
      rw [List.foldl_cons, later, loopWeight_cons]
      by_cases same : step.cell = cell
      · subst same
        rw [Function.update_self, if_pos rfl]
        ring
      · rw [Function.update_of_ne (Ne.symm same), if_neg same, zero_add]

/-! ## The smallest amount on the losing cells -/

/-- The best choice among the losing cells that were seen. -/
def LeastSeen (amounts : Amounts Int) (seen : List LoopCell) :
    Option (Int × Cell) → Prop
  | none => ∀ step ∈ seen, step.sign = .plus
  | some (theta, leaving) => theta = amounts.getOrZero leaving ∧
      ⟨leaving, .minus⟩ ∈ seen ∧
      ∀ step ∈ seen, step.sign = .minus → theta ≤ amounts.getOrZero step.cell

/-- One step of the search for the smallest amount. -/
def smallerLoss (amounts : Amounts Int) (best : Option (Int × Cell)) (step : LoopCell) :
    Option (Int × Cell) :=
  match step.sign with
  | .plus => best
  | .minus =>
      match best with
      | none => some (amounts.getOrZero step.cell, step.cell)
      | some (least, leaving) =>
          if amounts.getOrZero step.cell < least then
            some (amounts.getOrZero step.cell, step.cell)
          else some (least, leaving)

theorem LeastSeen.smallerLoss {amounts : Amounts Int} {seen : List LoopCell}
    {best : Option (Int × Cell)} (least : LeastSeen amounts seen best) (step : LoopCell) :
    LeastSeen amounts (seen ++ [step]) (smallerLoss amounts best step) := by
  obtain ⟨cell, sign⟩ := step
  cases sign with
  | plus =>
      cases best with
      | none =>
          intro other member
          rcases List.mem_append.mp member with old | new
          · exact least other old
          · obtain rfl := List.mem_singleton.mp new
            rfl
      | some held =>
          obtain ⟨value, member, below⟩ := least
          refine ⟨value, List.mem_append_left _ member, ?_⟩
          intro other otherMember loses
          rcases List.mem_append.mp otherMember with old | new
          · exact below other old loses
          · obtain rfl := List.mem_singleton.mp new
            cases loses
  | minus =>
      cases best with
      | none =>
          refine ⟨rfl, by simp, ?_⟩
          intro other otherMember loses
          rcases List.mem_append.mp otherMember with old | new
          · rw [least other old] at loses
            cases loses
          · obtain rfl := List.mem_singleton.mp new
            exact le_refl _
      | some held =>
          obtain ⟨theta, leaving⟩ := held
          obtain ⟨value, member, below⟩ := least
          by_cases less : amounts.getOrZero cell < theta
          · simp only [Transport.smallerLoss, if_pos less]
            refine ⟨rfl, by simp, ?_⟩
            intro other otherMember loses
            rcases List.mem_append.mp otherMember with old | new
            · exact less.le.trans (below other old loses)
            · obtain rfl := List.mem_singleton.mp new
              exact le_refl _
          · simp only [Transport.smallerLoss, if_neg less]
            refine ⟨value, List.mem_append_left _ member, ?_⟩
            intro other otherMember loses
            rcases List.mem_append.mp otherMember with old | new
            · exact below other old loses
            · obtain rfl := List.mem_singleton.mp new
              exact not_lt.mp less

theorem bottleneck_eq_foldl (amounts : Amounts Int) (loop : List LoopCell) :
    bottleneck amounts loop =
      match loop.foldl (smallerLoss amounts) none with
      | some (theta, leaving) => .ok (theta, some leaving)
      | none => .ok (0, none) := by
  unfold bottleneck
  rw [foldlM_eq_ok (smallerLoss amounts)]
  · rw [ok_bind]
    cases loop.foldl (smallerLoss amounts) none <;> rfl
  · intro step _ best
    obtain ⟨cell, sign⟩ := step
    cases sign with
    | plus => rfl
    | minus =>
        cases best with
        | none => rfl
        | some held => simp [smallerLoss]

/-- The bottleneck of a loop with a losing cell is a losing cell with the smallest
amount. -/
theorem bottleneck_eq_ok (amounts : Amounts Int) {loop : List LoopCell}
    (losing : ∃ step ∈ loop, step.sign = .minus) :
    ∃ leaving, bottleneck amounts loop = .ok (amounts.getOrZero leaving, some leaving) ∧
      ⟨leaving, .minus⟩ ∈ loop ∧
      ∀ step ∈ loop, step.sign = .minus →
        amounts.getOrZero leaving ≤ amounts.getOrZero step.cell := by
  have least : LeastSeen amounts loop (loop.foldl (smallerLoss amounts) none) := by
    apply foldl_invariant (LeastSeen amounts)
    · simp [LeastSeen]
    · exact fun seen step best _ known => known.smallerLoss step
  rw [bottleneck_eq_foldl]
  cases best : loop.foldl (smallerLoss amounts) none with
  | none =>
      rw [best] at least
      obtain ⟨step, member, loses⟩ := losing
      rw [least step member] at loses
      cases loses
  | some held =>
      rw [best] at least
      obtain ⟨theta, leaving⟩ := held
      obtain ⟨rfl, member, below⟩ := least
      exact ⟨leaving, rfl, member, below⟩

/-! ## Shifting around a loop -/

theorem shift_eq_ok {amounts : Amounts Int} {step : LoopCell} (theta : Int)
    (held : step.sign = .minus → step.cell ∈ amounts.cells) :
    shift theta amounts step = .ok (amounts.put step.cell
      (amounts.getOrZero step.cell + theta * step.sign.factor)) := by
  obtain ⟨cell, sign⟩ := step
  cases sign with
  | plus => simp [shift, Sign.factor]
  | minus =>
      obtain ⟨amount, found⟩ := Amounts.mem_cells_iff.mp (held rfl)
      simp [shift, found, Sign.factor, Amounts.getOrZero, sub_eq_add_neg]

/-- A shift enters the cells of the loop and changes their amounts by its weights. -/
theorem foldlM_shift_eq_ok (theta : Int) {loop : List LoopCell} {amounts : Amounts Int}
    (nodup : amounts.cells.Nodup)
    (held : ∀ step ∈ loop, step.sign = .minus → step.cell ∈ amounts.cells) :
    ∃ shifted, loop.foldlM (shift theta) amounts = .ok shifted ∧
      shifted.cells.Nodup ∧
      (∀ cell, cell ∈ shifted.cells ↔
        cell ∈ amounts.cells ∨ cell ∈ loop.map (·.cell)) ∧
      ∀ cell, shifted.getOrZero cell =
        amounts.getOrZero cell + theta * loopWeight loop cell := by
  induction loop generalizing amounts with
  | nil => exact ⟨amounts, rfl, nodup, by simp, by simp [loopWeight_nil]⟩
  | cons step rest induction =>
      have first := shift_eq_ok theta (held step (by simp))
      let next := amounts.put step.cell
        (amounts.getOrZero step.cell + theta * step.sign.factor)
      have nextHeld : ∀ other ∈ rest, other.sign = .minus → other.cell ∈ next.cells :=
        fun other member loses => (Amounts.mem_cells_put _).mpr
          (.inr (held other (by simp [member]) loses))
      obtain ⟨shifted, result, kept, member, amount⟩ :=
        induction (Amounts.nodup_put _ nodup) nextHeld
      refine ⟨shifted, ?_, kept, ?_, ?_⟩
      · rw [List.foldlM_cons, first, ok_bind]
        exact result
      · intro cell
        rw [member, Amounts.mem_cells_put, List.map_cons, List.mem_cons]
        tauto
      · intro cell
        rw [amount, Amounts.getOrZero_put, loopWeight_cons]
        split
        next same =>
            rw [same]
            ring
        next => ring

end OptimalPlans.Transport
