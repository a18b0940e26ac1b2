import Mathlib
import OptimalPlans.Transport.Trail

/-!
# The graph of lines and cells

Rows and columns are the nodes of a graph, and the cells of a list are its edges.  A
spanning tree of a table joins all of its lines without a loop.  A forest that has one
cell less than there are lines is a spanning tree, and no forest has more cells.
-/

namespace OptimalPlans.Transport

/-- The edge between the two lines of a cell. -/
def Cell.edge (cell : Cell) : Sym2 Line :=
  s(.row cell.row, .col cell.col)

theorem Cell.edge_injective : Function.Injective Cell.edge := by
  intro left right equality
  cases left
  cases right
  simpa [Cell.edge] using equality

theorem Cell.edge_notDiag (cell : Cell) : ¬ cell.edge.IsDiag := by
  simp [Cell.edge]

/-- Lines are adjacent when they meet in one of the cells. -/
def lineGraph (cells : List Cell) : SimpleGraph Line :=
  SimpleGraph.fromEdgeSet (Cell.edge '' {cell | cell ∈ cells})

/-- Whether two lines are joined by a trail of cells. -/
def Joined (cells : List Cell) (left right : Line) : Prop :=
  (lineGraph cells).Reachable left right

theorem edgeSet_lineGraph (cells : List Cell) :
    (lineGraph cells).edgeSet = Cell.edge '' {cell | cell ∈ cells} := by
  rw [lineGraph, SimpleGraph.edgeSet_fromEdgeSet, sdiff_eq_left]
  refine Set.disjoint_left.mpr ?_
  rintro _ ⟨cell, _, rfl⟩ diagonal
  exact cell.edge_notDiag (by simpa using diagonal)

theorem lineGraph_adj_iff {cells : List Cell} {left right : Line} :
    (lineGraph cells).Adj left right ↔ ∃ cell ∈ cells, cell.edge = s(left, right) := by
  rw [← SimpleGraph.mem_edgeSet, edgeSet_lineGraph]
  rfl

theorem lineGraph_adj_of_mem {cells : List Cell} {cell : Cell} (member : cell ∈ cells) :
    (lineGraph cells).Adj (.row cell.row) (.col cell.col) :=
  lineGraph_adj_iff.mpr ⟨cell, member, rfl⟩

theorem lineGraph_mono {cells others : List Cell} (subset : cells ⊆ others) :
    lineGraph cells ≤ lineGraph others := by
  intro left right adjacent
  obtain ⟨cell, member, equality⟩ := lineGraph_adj_iff.mp adjacent
  exact lineGraph_adj_iff.mpr ⟨cell, subset member, equality⟩

theorem lineGraph_concat (cells : List Cell) (cell : Cell) :
    lineGraph (cells ++ [cell]) =
      lineGraph cells ⊔ SimpleGraph.edge (.row cell.row) (.col cell.col) := by
  ext left right
  rw [SimpleGraph.sup_adj, SimpleGraph.edge, SimpleGraph.fromEdgeSet_adj,
    lineGraph_adj_iff, lineGraph_adj_iff]
  constructor
  · rintro ⟨other, member, equality⟩
    rcases List.mem_append.mp member with old | new
    · exact .inl ⟨other, old, equality⟩
    · obtain rfl := List.mem_singleton.mp new
      refine .inr ⟨equality.symm, ?_⟩
      rintro rfl
      exact other.edge_notDiag (by simp [equality])
  · rintro (⟨other, member, equality⟩ | ⟨equality, _⟩)
    · exact ⟨other, by simp [member], equality⟩
    · exact ⟨cell, by simp, equality.symm⟩

namespace Joined

variable {cells others : List Cell} {left middle right : Line}

theorem refl (line : Line) : Joined cells line line :=
  SimpleGraph.Reachable.refl line

theorem symm (joined : Joined cells left right) : Joined cells right left :=
  SimpleGraph.Reachable.symm joined

theorem trans (first : Joined cells left middle) (second : Joined cells middle right) :
    Joined cells left right :=
  SimpleGraph.Reachable.trans first second

theorem of_mem {cell : Cell} (member : cell ∈ cells) :
    Joined cells (.row cell.row) (.col cell.col) :=
  (lineGraph_adj_of_mem member).reachable

theorem mono (subset : cells ⊆ others) (joined : Joined cells left right) :
    Joined others left right :=
  SimpleGraph.Reachable.mono (lineGraph_mono subset) joined

/-- A property that every cell carries from one of its lines to the other holds of all
lines that are joined to a line with it. -/
theorem carries {property : Line → Prop} (joined : Joined cells left right)
    (carried : ∀ cell ∈ cells, property (.row cell.row) ↔ property (.col cell.col))
    (holds : property left) : property right := by
  obtain ⟨walk⟩ := joined
  induction walk with
  | nil => exact holds
  | cons adjacent _ induction =>
      apply induction
      obtain ⟨cell, member, equality⟩ := lineGraph_adj_iff.mp adjacent
      rcases Sym2.eq_iff.mp equality with ⟨rfl, rfl⟩ | ⟨rfl, rfl⟩
      · exact (carried cell member).mp holds
      · exact (carried cell member).mpr holds

end Joined

/-! ## Forests -/

/-- A list of cells without a loop. -/
def Loopless (cells : List Cell) : Prop :=
  (lineGraph cells).IsAcyclic

namespace Loopless

variable {cells others : List Cell} {cell : Cell}

theorem nil : Loopless [] := by
  have bottom : lineGraph [] = ⊥ := by simp [lineGraph]
  rw [Loopless, bottom]
  exact SimpleGraph.isAcyclic_bot

theorem mono (loopless : Loopless others) (subset : cells ⊆ others) : Loopless cells :=
  SimpleGraph.IsAcyclic.anti (lineGraph_mono subset) loopless

/-- A cell whose lines are not joined closes no loop. -/
theorem concat (loopless : Loopless cells)
    (apart : ¬ Joined cells (.row cell.row) (.col cell.col)) :
    Loopless (cells ++ [cell]) := by
  rw [Loopless, lineGraph_concat]
  exact SimpleGraph.IsAcyclic.sup_edge_of_not_reachable apart loopless

/-- The lines of a cell of a forest are not joined by the other cells. -/
theorem apart (loopless : Loopless cells) (member : cell ∈ cells)
    (within : others ⊆ cells) (absent : cell ∉ others) :
    ¬ Joined others (.row cell.row) (.col cell.col) := by
  intro joined
  have bridge : (lineGraph cells).IsBridge cell.edge :=
    SimpleGraph.isAcyclic_iff_forall_isBridge.mp loopless
      (by rw [edgeSet_lineGraph]; exact ⟨cell, member, rfl⟩)
  rw [Cell.edge, SimpleGraph.isBridge_iff] at bridge
  refine bridge (SimpleGraph.Reachable.mono ?_ joined)
  intro left right adjacent
  obtain ⟨other, otherMember, equality⟩ := lineGraph_adj_iff.mp adjacent
  have different : other ≠ cell := by
    rintro rfl
    exact absent otherMember
  rw [SimpleGraph.deleteEdges_adj]
  refine ⟨lineGraph_adj_iff.mpr ⟨other, within otherMember, equality⟩, ?_⟩
  intro same
  apply different
  apply Cell.edge_injective
  rw [equality]
  exact same

end Loopless

/-! ## Spanning trees -/

/-- A cell of a table with so many rows and columns. -/
def Cell.InTable (rows cols : Nat) (cell : Cell) : Prop :=
  cell.row < rows ∧ cell.col < cols

/-- A line of a table. -/
def Line.InTable (rows cols : Nat) : Line → Prop
  | .row index => index < rows
  | .col index => index < cols

/-- Cells that join all lines of a table without a loop. -/
structure SpanningTree (rows cols : Nat) (cells : List Cell) : Prop where
  inTable : ∀ cell ∈ cells, cell.InTable rows cols
  nodup : cells.Nodup
  loopless : Loopless cells
  joined : ∀ left right : Line, left.InTable rows cols → right.InTable rows cols →
    Joined cells left right

/-- The line that a row or a column of a table is. -/
def tableLine (rows cols : Nat) : Fin rows ⊕ Fin cols → Line
  | .inl row => .row row
  | .inr col => .col col

/-- The graph of lines and cells on the finitely many lines of a table. -/
def tableGraph (rows cols : Nat) (cells : List Cell) :
    SimpleGraph (Fin rows ⊕ Fin cols) :=
  (lineGraph cells).comap (tableLine rows cols)

section Table

variable {rows cols : Nat} {cells : List Cell}

theorem tableLine_injective : Function.Injective (tableLine rows cols) := by
  rintro (left | left) (right | right) equality <;>
    simp only [tableLine, Line.row.injEq, Line.col.injEq, reduceCtorEq] at equality
  · rw [Fin.ext equality]
  · rw [Fin.ext equality]

theorem exists_tableLine {line : Line} (inTable : line.InTable rows cols) :
    ∃ node, tableLine rows cols node = line := by
  cases line with
  | row index => exact ⟨.inl ⟨index, inTable⟩, rfl⟩
  | col index => exact ⟨.inr ⟨index, inTable⟩, rfl⟩

theorem tableLine_inTable (node : Fin rows ⊕ Fin cols) :
    (tableLine rows cols node).InTable rows cols := by
  cases node with
  | inl row => exact row.isLt
  | inr col => exact col.isLt

theorem tableGraph_isAcyclic (loopless : Loopless cells) :
    (tableGraph rows cols cells).IsAcyclic :=
  SimpleGraph.IsAcyclic.comap (SimpleGraph.Hom.comap (tableLine rows cols) _)
    tableLine_injective loopless

theorem joined_iff_reachable (inTable : ∀ cell ∈ cells, cell.InTable rows cols)
    (left right : Fin rows ⊕ Fin cols) :
    Joined cells (tableLine rows cols left) (tableLine rows cols right) ↔
      (tableGraph rows cols cells).Reachable left right := by
  constructor
  · intro joined
    -- The lines reached inside the table are closed under the cells.
    let reached : Line → Prop := fun line =>
      ∃ node, tableLine rows cols node = line ∧
        (tableGraph rows cols cells).Reachable left node
    have carried : ∀ cell ∈ cells,
        reached (.row cell.row) ↔ reached (.col cell.col) := by
      intro cell member
      have bounds := inTable cell member
      have adjacent : (tableGraph rows cols cells).Adj
          (.inl ⟨cell.row, bounds.1⟩) (.inr ⟨cell.col, bounds.2⟩) :=
        lineGraph_adj_of_mem member
      constructor
      · rintro ⟨node, equality, reach⟩
        obtain rfl : node = .inl ⟨cell.row, bounds.1⟩ := tableLine_injective equality
        exact ⟨_, rfl, reach.trans adjacent.reachable⟩
      · rintro ⟨node, equality, reach⟩
        obtain rfl : node = .inr ⟨cell.col, bounds.2⟩ := tableLine_injective equality
        exact ⟨_, rfl, reach.trans adjacent.symm.reachable⟩
    obtain ⟨node, equality, reach⟩ :=
      joined.carries carried ⟨left, rfl, SimpleGraph.Reachable.refl left⟩
    rwa [tableLine_injective equality] at reach
  · intro reach
    exact reach.map (SimpleGraph.Hom.comap (tableLine rows cols) (lineGraph cells))

theorem card_edgeSet_tableGraph (inTable : ∀ cell ∈ cells, cell.InTable rows cols)
    (nodup : cells.Nodup) :
    Nat.card (tableGraph rows cols cells).edgeSet = cells.length := by
  have image : Sym2.map (tableLine rows cols) '' (tableGraph rows cols cells).edgeSet =
      Cell.edge '' {cell | cell ∈ cells} := by
    rw [← edgeSet_lineGraph]
    ext edge
    constructor
    · rintro ⟨tableEdge, member, rfl⟩
      induction tableEdge with
      | _ left right => exact member
    · rw [edgeSet_lineGraph]
      rintro ⟨cell, member, rfl⟩
      have bounds := inTable cell member
      exact ⟨s(.inl ⟨cell.row, bounds.1⟩, .inr ⟨cell.col, bounds.2⟩),
        lineGraph_adj_of_mem member, rfl⟩
  have listed : {cell | cell ∈ cells} = (cells.toFinset : Set Cell) := by
    ext cell
    simp
  calc Nat.card (tableGraph rows cols cells).edgeSet
      = (tableGraph rows cols cells).edgeSet.ncard := Nat.card_coe_set_eq _
    _ = (Sym2.map (tableLine rows cols) ''
          (tableGraph rows cols cells).edgeSet).ncard :=
        (Set.ncard_image_of_injective _ (Sym2.map.injective tableLine_injective)).symm
    _ = {cell | cell ∈ cells}.ncard := by
        rw [image, Set.ncard_image_of_injective _ Cell.edge_injective]
    _ = cells.length := by
        rw [listed, Set.ncard_coe_finset, List.toFinset_card_of_nodup nodup]

theorem card_tableLines : Nat.card (Fin rows ⊕ Fin cols) = rows + cols := by
  simp

/-- A spanning tree of a table is a tree on its lines. -/
theorem SpanningTree.isTree (tree : SpanningTree rows cols cells) (positive : 0 < rows) :
    (tableGraph rows cols cells).IsTree := by
  have : Nonempty (Fin rows ⊕ Fin cols) := ⟨.inl ⟨0, positive⟩⟩
  refine ⟨⟨?_⟩, tableGraph_isAcyclic tree.loopless⟩
  intro left right
  apply (joined_iff_reachable tree.inTable left right).mp
  exact tree.joined _ _ (tableLine_inTable left) (tableLine_inTable right)

theorem SpanningTree.length_add_one (tree : SpanningTree rows cols cells)
    (positive : 0 < rows) : cells.length + 1 = rows + cols := by
  have counted := (SimpleGraph.isTree_iff_connected_and_card.mp (tree.isTree positive)).2
  rwa [card_edgeSet_tableGraph tree.inTable tree.nodup, card_tableLines] at counted

/-- A forest extends to a tree on the lines of its table. -/
theorem Loopless.exists_tree (loopless : Loopless cells) (rows cols : Nat)
    (positive : 0 < rows) :
    ∃ tree : SimpleGraph (Fin rows ⊕ Fin cols),
      tableGraph rows cols cells ≤ tree ∧ tree.IsTree := by
  have : Nonempty (Fin rows ⊕ Fin cols) := ⟨.inl ⟨0, positive⟩⟩
  have complete : (⊤ : SimpleGraph (Fin rows ⊕ Fin cols)).Connected :=
    SimpleGraph.connected_top
  obtain ⟨tree, above, _, isTree⟩ :=
    complete.exists_isTree_le_of_le_of_isAcyclic le_top (tableGraph_isAcyclic loopless)
  exact ⟨tree, above, isTree⟩

theorem Loopless.length_lt (loopless : Loopless cells) (positive : 0 < rows)
    (inTable : ∀ cell ∈ cells, cell.InTable rows cols) (nodup : cells.Nodup) :
    cells.length < rows + cols := by
  obtain ⟨tree, above, isTree⟩ := loopless.exists_tree rows cols positive
  have counted := (SimpleGraph.isTree_iff_connected_and_card.mp isTree).2
  have fewer : Nat.card (tableGraph rows cols cells).edgeSet ≤ Nat.card tree.edgeSet :=
    Nat.card_mono (Set.toFinite _) (SimpleGraph.edgeSet_mono above)
  rw [card_edgeSet_tableGraph inTable nodup] at fewer
  rw [card_tableLines] at counted
  omega

/-- A forest with as many cells as a tree has is a spanning tree. -/
theorem Loopless.spanningTree (loopless : Loopless cells) (positive : 0 < rows)
    (inTable : ∀ cell ∈ cells, cell.InTable rows cols) (nodup : cells.Nodup)
    (full : cells.length + 1 = rows + cols) : SpanningTree rows cols cells := by
  refine ⟨inTable, nodup, loopless, ?_⟩
  obtain ⟨tree, above, isTree⟩ := loopless.exists_tree rows cols positive
  have counted := (SimpleGraph.isTree_iff_connected_and_card.mp isTree).2
  rw [card_tableLines] at counted
  have sameEdges : (tableGraph rows cols cells).edgeSet = tree.edgeSet := by
    apply Set.eq_of_subset_of_ncard_le (SimpleGraph.edgeSet_mono above)
    rw [← Nat.card_coe_set_eq, ← Nat.card_coe_set_eq,
      card_edgeSet_tableGraph inTable nodup]
    omega
  have same : tableGraph rows cols cells = tree := SimpleGraph.edgeSet_injective sameEdges
  intro left right leftInTable rightInTable
  obtain ⟨leftNode, rfl⟩ := exists_tableLine leftInTable
  obtain ⟨rightNode, rfl⟩ := exists_tableLine rightInTable
  apply (joined_iff_reachable inTable leftNode rightNode).mpr
  rw [same]
  exact isTree.connected leftNode rightNode

end Table

end OptimalPlans.Transport
