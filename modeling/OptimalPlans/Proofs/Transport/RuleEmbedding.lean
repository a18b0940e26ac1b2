import OptimalPlans.Proofs.Transport.PlanEmbedding

/-!
# Prices and quantities over embedded scalars

The potentials of an embedded table are the embedded potentials, and so are the reduced
costs.  Embedded quantities are open where the quantities are, and taking an embedded
amount from one of them is the embedded outcome.
-/

namespace OptimalPlans.Transport

/-! ## Potentials -/

def Potentials.map {α β : Type} (f : α → β) (potentials : Potentials α) : Potentials β :=
  ⟨potentials.rows.map (Option.map f), potentials.cols.map (Option.map f)⟩

namespace Potentials

theorem unresolved_map {α β : Type} (f : α → β) (potentials : Potentials α) :
    (potentials.map f).unresolved = potentials.unresolved := by
  have missing : (Option.isNone ∘ Option.map f) = Option.isNone := by
    funext value
    cases value <;> rfl
  simp [unresolved, map, List.countP_map, missing]

variable {α β : Type} [Scalar α] [Scalar β] {embed : α → β}
variable (embedding : Scalar.Embedding embed)
include embedding

theorem resolve_map (cost : Table α) (potentials : Potentials α) (cell : Cell) :
    resolve (cost.mapEntries embed) (potentials.map embed) cell =
      (resolve cost potentials cell).map (Potentials.map embed) := by
  unfold resolve
  refine bind_agrees (entryAt_map _ potentials.rows cell.row) fun row => ?_
  refine bind_agrees (entryAt_map _ potentials.cols cell.col) fun col => ?_
  rcases row with _ | u <;> rcases col with _ | v
  · rfl
  · refine bind_agrees (Table.entry_mapEntries embed cost cell) fun price => ?_
    refine bind_agrees (embedding.sub price v) fun u => ?_
    simp [map]
  · refine bind_agrees (Table.entry_mapEntries embed cost cell) fun price => ?_
    refine bind_agrees (embedding.sub price u) fun v => ?_
    simp [map]
  · rfl

theorem settle_map (cost : Table α) (cells : List Cell) (potentials : Potentials α) :
    settle (cost.mapEntries embed) cells (potentials.map embed) =
      (settle cost cells potentials).map (Potentials.map embed) := by
  induction size : potentials.unresolved using Nat.strong_induction_on
    generalizing potentials with
  | _ size induction =>
      rw [settle, settle]
      refine bind_agrees (foldlM_agrees (resolve_map embedding cost) cells rfl) fun next => ?_
      rw [unresolved_map, unresolved_map]
      by_cases fewer : next.unresolved < potentials.unresolved
      · rw [if_pos fewer, if_pos fewer]
        exact induction next.unresolved (size ▸ fewer) next rfl
      · rw [if_neg fewer, if_neg fewer]
        rfl

theorem ofBasis_map (cost : Table α) (basis : List Cell) (rows cols : Nat) :
    ofBasis (cost.mapEntries embed) basis rows cols =
      (ofBasis cost basis rows cols).map (Potentials.map embed) := by
  cases rows with
  | zero => rfl
  | succ later =>
      unfold ofBasis
      rw [← settle_map embedding]
      simp [map, embedding.ofInt]

theorem reducedCost_map (potentials : Potentials α) (row : Option α) (col : Nat)
    (price : α) :
    (potentials.map embed).reducedCost (row.map embed) col (embed price) =
      (potentials.reducedCost row col price).map (Option.map embed) := by
  unfold reducedCost
  cases row with
  | none => rfl
  | some u =>
      refine bind_agrees (entryAt_map _ potentials.cols col) fun held => ?_
      cases held with
      | none => rfl
      | some v =>
          refine bind_agrees (embedding.sub price u) fun rest => ?_
          exact bind_agrees (embedding.sub rest v) fun value => rfl

theorem reducedCosts_map (potentials : Potentials α) (cost : Table α) :
    (potentials.map embed).reducedCosts (cost.mapEntries embed) =
      (potentials.reducedCosts cost).map (Table.mapEntries (Option.map embed)) := by
  unfold reducedCosts
  rw [Table.mapEntries, List.zipIdx_map]
  refine mapM_map fun ⟨prices, row⟩ _ => ?_
  refine bind_agrees (entryAt_map _ potentials.rows row) fun u => ?_
  dsimp only [Prod.map]
  rw [List.zipIdx_map]
  exact mapM_map fun ⟨price, col⟩ _ => reducedCost_map embedding potentials u col price

end Potentials

/-! ## Quantities -/

section Quantities

variable {α β : Type} [Scalar α] [Scalar β] {embed : α → β}
variable (embedding : Scalar.Embedding embed)
include embedding

theorem isOpen_map (quantities : List α) :
    isOpen (quantities.map embed) = isOpen quantities := by
  funext index
  rw [isOpen, isOpen, List.getElem?_map]
  cases quantities[index]? with
  | none => rfl
  | some quantity => exact congrArg not (embedding.isZero quantity)

theorem openLines_map (quantities : List α) :
    openLines (quantities.map embed) = openLines quantities := by
  rw [openLines, openLines, isOpen_map embedding, List.length_map]

theorem openCells_map (supply demand : List α) :
    openCells (supply.map embed) (demand.map embed) = openCells supply demand := by
  rw [openCells, openCells, isOpen_map embedding, isOpen_map embedding, List.length_map,
    List.length_map]

theorem takeAt_map (quantities : List α) (index : Nat) (amount : α) :
    takeAt (quantities.map embed) index (embed amount) =
      (takeAt quantities index amount).map (List.map embed) := by
  unfold takeAt
  refine bind_agrees (entryAt_map _ quantities index) fun held => ?_
  refine bind_agrees (embedding.sub held amount) fun rest => ?_
  exact congrArg Except.ok List.map_set.symm

end Quantities

end OptimalPlans.Transport
