import OptimalPlans.Proofs.Transport.ReducedCosts
import OptimalPlans.Proofs.Transport.RuleEmbedding
import OptimalPlans.Proofs.Transport.SpanningBasis

/-!
# Reach of potentials

Any cells of a table price exactly the lines that they join to the first row.  Without a
loop among them, every reached cell costs what its two lines are worth, and no other
prices from zero do that.  A reduced cost is missing where a line is not reached.
-/

namespace OptimalPlans.Transport

section Reach

variable {rows cols : Nat} {cost : Table Int} {cells : List Cell}

/-- The two lines of a cell are reached together. -/
theorem joined_row_iff_col {start : Line} {cell : Cell} (member : cell ∈ cells) :
    Joined cells start (.row cell.row) ↔ Joined cells start (.col cell.col) :=
  ⟨fun joined => joined.trans (Joined.of_mem member),
    fun joined => joined.trans (Joined.of_mem member).symm⟩

/-- The lines of a forest can be priced from zero, also where a cell is listed twice. -/
theorem Loopless.exists_prices_from_origin (cost : Table Int) (loopless : Loopless cells) :
    ∃ price, Prices cost cells price ∧ price (.row 0) = 0 := by
  have within : cells.dedup ⊆ cells := List.dedup_subset cells
  obtain ⟨price, prices, origin⟩ :=
    (loopless.mono within).exists_prices_from cost (List.nodup_dedup cells) 0
  exact ⟨price, fun cell member => prices cell (List.mem_dedup.mpr member), origin⟩

namespace Potentials

/-- The potentials of some cells resolve the lines that these join to the first row, each
at its price if there are prices. -/
theorem ofBasis_reaches (shaped : cost.Shaped rows cols) (positive : 0 < rows)
    (inTable : ∀ cell ∈ cells, cell.InTable rows cols) :
    ∃ potentials, ofBasis cost cells rows cols = .ok potentials ∧
      potentials.rows.length = rows ∧ potentials.cols.length = cols ∧
      potentials.at? (.row 0) = some 0 ∧
      (∀ line, (potentials.at? line).isSome ↔ Joined cells (.row 0) line) ∧
      ∀ price, Prices cost cells price → price (.row 0) = 0 →
        ∀ line value, potentials.at? line = some value → value = price line := by
  -- Being reached is carried along the cells, whatever these cost.
  have reached : ∀ cell ∈ cells,
      Carries cost (fun line _ => Joined cells (.row 0) line) cell := fun cell member =>
    ⟨fun _ => (joined_row_iff_col member).mp, fun _ => (joined_row_iff_col member).mpr⟩
  obtain ⟨potentials, result, respects, start, settled⟩ :=
    ofBasis_respects shaped positive inTable (Joined.refl (.row 0)) reached
  refine ⟨potentials, result, respects.rows_length, respects.cols_length, start, ?_, ?_⟩
  · intro line
    constructor
    · intro some
      obtain ⟨value, found⟩ := Option.isSome_iff_exists.mp some
      exact respects.sound line value found
    · exact isSome_of_joined start settled
  · intro price prices origin
    obtain ⟨again, same, priced, _⟩ :=
      ofBasis_respects shaped positive inTable origin.symm
        fun cell member => .of_prices prices member
    obtain rfl : potentials = again := Except.ok.inj (result.symm.trans same)
    exact priced.sound

/-- A reached cell costs the sum of its two potentials. -/
def PaysReached (cost : Table Int) (cells : List Cell) (potentials : Potentials Int) : Prop :=
  ∀ cell ∈ cells, Joined cells (.row 0) (.row cell.row) →
    ∃ u v, potentials.at? (.row cell.row) = some u ∧
      potentials.at? (.col cell.col) = some v ∧ cost.price cell = u + v

end Potentials

/-- Prices from zero, whole or not, that the cells reached from the first row cost. -/
structure ReachedPrices (cost : Table Int) (cells : List Cell) (price : Line → Rat) :
    Prop where
  origin : price (.row 0) = 0
  costs : ∀ cell ∈ cells, Joined cells (.row 0) (.row cell.row) →
    (cost.price cell : Rat) = price (.row cell.row) + price (.col cell.col)

/-- Potentials that the reached cells cost are the only such prices. -/
theorem ReachedPrices.eq_potential {potentials : Potentials Int} {price : Line → Rat}
    (prices : ReachedPrices cost cells price) (pays : potentials.PaysReached cost cells)
    (start : potentials.at? (.row 0) = some 0) {line : Line}
    (joined : Joined cells (.row 0) line) :
    ∃ value, potentials.at? line = some value ∧ price line = value := by
  let agrees : Line → Prop := fun line => Joined cells (.row 0) line ∧
    ∃ value, potentials.at? line = some value ∧ price line = value
  have carried : ∀ cell ∈ cells, agrees (.row cell.row) ↔ agrees (.col cell.col) := by
    intro cell member
    constructor
    · rintro ⟨reached, value, found, equal⟩
      obtain ⟨u, v, rowFound, colFound, sum⟩ := pays cell member reached
      obtain rfl : value = u := Option.some.inj (found.symm.trans rowFound)
      have costs := prices.costs cell member reached
      rw [sum, equal] at costs
      push_cast at costs
      exact ⟨(joined_row_iff_col member).mp reached, v, colFound, by linarith⟩
    · rintro ⟨reached, value, found, equal⟩
      have rowReached := (joined_row_iff_col member).mpr reached
      obtain ⟨u, v, rowFound, colFound, sum⟩ := pays cell member rowReached
      obtain rfl : value = v := Option.some.inj (found.symm.trans colFound)
      have costs := prices.costs cell member rowReached
      rw [sum, equal] at costs
      push_cast at costs
      exact ⟨rowReached, u, rowFound, by linarith⟩
  exact (joined.carries carried
    ⟨Joined.refl _, 0, start, by rw [prices.origin, Int.cast_zero]⟩).2

/-- Whatever cells of a table are given, their potentials are found, and a line is resolved
exactly where the cells join it to the first row.  A reduced cost is missing exactly where
a potential of its lines is.  If the cells form no loop, every reached cell costs the sum
of its two potentials, which are the only prices from zero with that property, and has the
reduced cost zero. -/
theorem potentials_reach_component (shaped : cost.Shaped rows cols) (positive : 0 < rows)
    (inTable : ∀ cell ∈ cells, cell.InTable rows cols) :
    ∃ (potentials : Potentials Int) (reduced : Table (Option Int)),
      Potentials.ofBasis (cost.mapEntries Number.integer) cells rows cols =
        .ok (potentials.map Number.integer) ∧
      (potentials.map Number.integer).reducedCosts (cost.mapEntries Number.integer) =
        .ok (reduced.mapEntries (Option.map Number.integer)) ∧
      (∀ line, (potentials.at? line).isSome ↔ Joined cells (.row 0) line) ∧
      (∀ cell : Cell, cell.InTable rows cols → ∃ value, reduced.entry cell = .ok value ∧
        (value = none ↔ potentials.at? (.row cell.row) = none ∨
          potentials.at? (.col cell.col) = none)) ∧
      (Loopless cells →
        potentials.at? (.row 0) = some 0 ∧ potentials.PaysReached cost cells ∧
        (∀ price, ReachedPrices cost cells price → ∀ line, Joined cells (.row 0) line →
          ∃ value, potentials.at? line = some value ∧ price line = value) ∧
        ∀ cell ∈ cells, Joined cells (.row 0) (.row cell.row) →
          reduced.entry cell = .ok (some 0)) := by
  obtain ⟨potentials, result, rowsLength, colsLength, start, resolved, sound⟩ :=
    Potentials.ofBasis_reaches shaped positive inTable
  let reduced := cost.mapCells fun cell unit => Option.map₂ (fun u v => unit - u - v)
    (potentials.at? (.row cell.row)) (potentials.at? (.col cell.col))
  have entry : ∀ cell : Cell, cell.InTable rows cols → reduced.entry cell =
      .ok (Option.map₂ (fun u v => cost.price cell - u - v)
        (potentials.at? (.row cell.row)) (potentials.at? (.col cell.col))) := by
    intro cell cellInTable
    rw [Table.entry_mapCells, shaped.entry_eq_ok cellInTable, map_ok]
  refine ⟨potentials, reduced, ?_, ?_, resolved, fun cell cellInTable => ?_,
    fun loopless => ?_⟩
  · rw [Potentials.ofBasis_map Scalar.integer_embedding, result, map_ok]
  · rw [Potentials.reducedCosts_map Scalar.integer_embedding,
      reducedCosts_eq_mapCells shaped rowsLength colsLength, map_ok]
  · exact ⟨_, entry cell cellInTable, Option.map₂_eq_none_iff⟩
  · obtain ⟨price, prices, origin⟩ := loopless.exists_prices_from_origin cost
    have pays : potentials.PaysReached cost cells := by
      intro cell member joined
      obtain ⟨u, rowFound⟩ := Option.isSome_iff_exists.mp ((resolved _).mpr joined)
      obtain ⟨v, colFound⟩ := Option.isSome_iff_exists.mp
        ((resolved _).mpr ((joined_row_iff_col member).mp joined))
      refine ⟨u, v, rowFound, colFound, ?_⟩
      rw [sound price prices origin _ _ rowFound, sound price prices origin _ _ colFound]
      exact prices cell member
    refine ⟨start, pays, fun price prices line => prices.eq_potential pays start, ?_⟩
    intro cell member joined
    obtain ⟨u, v, rowFound, colFound, costs⟩ := pays cell member joined
    rw [entry cell (inTable cell member), rowFound, colFound, costs, Option.map₂_some_some]
    simp

theorem split_table_is_priced :
    ∃ (potentials : Potentials Int) (reduced : Table (Option Int)),
      Potentials.ofBasis
        (Table.mapEntries Number.integer [[4, 6, 1], [2, 5, 3], [7, 8, 9]])
        [⟨1, 0⟩, ⟨2, 2⟩, ⟨0, 0⟩] 3 3 = .ok (potentials.map Number.integer) ∧
      reduced.entry ⟨1, 0⟩ = .ok (some 0) ∧ potentials.at? (.row 2) = none := by
  let cells : List Cell := [⟨1, 0⟩, ⟨2, 2⟩, ⟨0, 0⟩]
  have shaped : Table.Shaped 3 3 ([[4, 6, 1], [2, 5, 3], [7, 8, 9]] : Table Int) := by decide
  have inTable : ∀ cell ∈ cells, cell.InTable 3 3 := by simp [cells, Cell.InTable]
  have accepted : acyclic cells = .ok cells := by cbv
  have reached : Joined cells (.row 0) (.row 1) := shortestTrail_isSome_iff.mp (by cbv)
  have unfound : shortestTrail cells (.row 0) (.row 2) = none := by cbv
  obtain ⟨potentials, reduced, result, _, resolved, _, priced⟩ :=
    potentials_reach_component shaped (by decide) inTable
  obtain ⟨_, _, _, zero⟩ := priced (acyclic_eq_ok_iff.mp accepted).2.1
  refine ⟨potentials, reduced, result, zero ⟨1, 0⟩ (by simp [cells]) reached, ?_⟩
  rw [← Option.not_isSome_iff_eq_none, resolved, ← shortestTrail_isSome_iff, unfound]
  simp

end Reach

end OptimalPlans.Transport
