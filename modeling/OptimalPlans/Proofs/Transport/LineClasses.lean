import OptimalPlans.Proofs.Transport.ConnectedPlans

/-!
# Completion over classes of lines

A union-find structure keeps lines in classes, and every cell of a basis unites the
classes of its two lines.  A completion that asks the structure for the roots of two
lines takes the same cells as one that searches for a trail between them, whatever the
structure does on a look-up.  Either refuses cells that are repeated or form a loop and
otherwise yields a spanning tree.
-/

namespace OptimalPlans.Transport

/-- Whether unions of the listed lines have brought two lines into one class. -/
def Together (unions : List (Line × Line)) : Line → Line → Prop :=
  Relation.EqvGen fun left right => (left, right) ∈ unions

/-- Classes of lines with a root each.  A look-up may change the state, too. -/
structure UnionFind (σ : Type) where
  initial : σ
  find : σ → Line → Line × σ
  union : σ → Line → Line → σ

namespace UnionFind

section Definitions

variable {σ : Type} (forest : UnionFind σ)

/-- The states after look-ups and the listed unions. -/
inductive History : σ → List (Line × Line) → Prop where
  | initial : History forest.initial []
  | find {state unions} (history : History state unions) (line : Line) :
      History (forest.find state line).2 unions
  | union {state unions} (history : History state unions) (left right : Line) :
      History (forest.union state left right) (unions ++ [(left, right)])

/-- Whether two lines have the same root, and the state after both look-ups. -/
def sameRoot (state : σ) (left right : Line) : Bool × σ :=
  let first := forest.find state left
  let second := forest.find first.2 right
  (first.1 = second.1, second.2)

/-- Two lines have the same root exactly when unions have brought them together. -/
def Lawful : Prop :=
  ∀ {state : σ} {unions : List (Line × Line)}, forest.History state unions →
    ∀ left right : Line,
      (forest.sameRoot state left right).1 = true ↔ Together unions left right

/-- Whether the lines of a cell had the same root already, and a state in which they do. -/
def visit (state : σ) (cell : Cell) : Bool × σ :=
  let asked := forest.sameRoot state (.row cell.row) (.col cell.col)
  if asked.1 then asked
  else (false, forest.union asked.2 (.row cell.row) (.col cell.col))

/-- Collects one more cell, whose lines need different roots. -/
def accept (collected : List Cell × σ) (cell : Cell) : Except Fault (List Cell × σ) :=
  let visited := forest.visit collected.2 cell
  if visited.1 then .error .cyclicPlan else .ok (collected.1 ++ [cell], visited.2)

/-- The cells whose lines had different roots, up to a number of them. -/
def joiningCells (state : σ) : Nat → List Cell → List Cell
  | 0, _ => []
  | _, [] => []
  | missing + 1, cell :: rest =>
      let visited := forest.visit state cell
      if visited.1 then joiningCells visited.2 (missing + 1) rest
      else cell :: joiningCells visited.2 missing rest

variable {α : Type} [Scalar α]

/-- A spanning tree that holds the given cells, by the roots of their lines. -/
def spanningBasis (cost : Table α) (cells : List Cell) (rows cols : Nat) :
    Except Fault (List Cell) := do
  let (basis, state) ← (Cell.sort cells).foldlM forest.accept ([], forest.initial)
  let needed := rows + cols - 1
  if basis.length < needed then
    let cells ← candidates cost basis rows cols
    return basis ++ forest.joiningCells state (needed - basis.length) cells
  else
    return basis

end Definitions

end UnionFind

/-! ## Classes and trails -/

/-- The two lines of a cell. -/
def Cell.lines (cell : Cell) : Line × Line :=
  (.row cell.row, .col cell.col)

/-- Uniting the lines of each cell brings the lines together that the cells join. -/
theorem together_iff_joined {cells : List Cell} {left right : Line} :
    Together (cells.map Cell.lines) left right ↔ Joined cells left right := by
  constructor
  · intro generated
    induction generated with
    | rel left right listed =>
        obtain ⟨cell, member, equality⟩ := List.mem_map.mp listed
        obtain ⟨rfl, rfl⟩ := Prod.mk.inj equality
        exact Joined.of_mem member
    | refl line => exact Joined.refl line
    | symm _ _ _ joined => exact joined.symm
    | trans _ _ _ _ _ first second => exact first.trans second
  · intro joined
    refine joined.carries (fun cell member => ?_) (Relation.EqvGen.refl left)
    have united : Together (cells.map Cell.lines) (.row cell.row) (.col cell.col) :=
      .rel _ _ (List.mem_map.mpr ⟨cell, member, rfl⟩)
    exact ⟨fun reached => reached.trans _ _ _ united,
      fun reached => reached.trans _ _ _ (united.symm _ _)⟩

namespace UnionFind

section Runs

variable {σ : Type} {forest : UnionFind σ} {state : σ} {basis : List Cell}

/-- One visit answers what a search for a trail answers, and unites the lines of a cell
that joins them. -/
theorem Lawful.visit_spec (lawful : forest.Lawful)
    (history : forest.History state (basis.map Cell.lines)) (cell : Cell) :
    (forest.visit state cell).1 = isJoined basis cell ∧
      forest.History (forest.visit state cell).2
        ((if isJoined basis cell then basis else basis ++ [cell]).map Cell.lines) := by
  let asked := forest.sameRoot state (.row cell.row) (.col cell.col)
  have answer : asked.1 = isJoined basis cell := by
    rw [Bool.eq_iff_iff, isJoined_iff, ← together_iff_joined]
    exact lawful history _ _
  have after : forest.History asked.2 (basis.map Cell.lines) :=
    (history.find (.row cell.row)).find (.col cell.col)
  have united := after.union (.row cell.row) (.col cell.col)
  cases joined : isJoined basis cell with
  | true =>
      have unchanged : forest.visit state cell = asked := if_pos (answer.trans joined)
      rw [unchanged]
      exact ⟨answer.trans joined, after⟩
  | false =>
      have changed : forest.visit state cell =
          (false, forest.union asked.2 (.row cell.row) (.col cell.col)) :=
        if_neg (by rw [answer, joined]; exact Bool.false_ne_true)
      rw [changed]
      exact ⟨rfl, by simpa [Cell.lines] using united⟩

/-- Collecting cells by their roots ends as collecting them by trails does, and the state
it ends in holds the cells it has collected. -/
theorem Lawful.foldlM_accept (lawful : forest.Lawful)
    (history : forest.History state (basis.map Cell.lines)) (cells : List Cell) :
    (cells.foldlM forest.accept (basis, state)).map (·.1) =
        cells.foldlM (fun basis cell =>
          if isJoined basis cell then .error .cyclicPlan else .ok (basis ++ [cell])) basis ∧
      ∀ collected, cells.foldlM forest.accept (basis, state) = .ok collected →
        forest.History collected.2 (collected.1.map Cell.lines) := by
  induction cells generalizing basis state with
  | nil =>
      refine ⟨rfl, fun collected result => ?_⟩
      obtain rfl := Except.ok.inj result
      exact history
  | cons cell cells induction =>
      obtain ⟨answer, after⟩ := lawful.visit_spec history cell
      rw [List.foldlM_cons, List.foldlM_cons, accept]
      simp only [answer]
      cases joined : isJoined basis cell with
      | true => exact ⟨rfl, fun collected result => nomatch result⟩
      | false =>
          rw [joined] at after
          exact induction after

theorem Lawful.joiningCells_eq (lawful : forest.Lawful)
    (history : forest.History state (basis.map Cell.lines)) (missing : Nat)
    (cells : List Cell) :
    forest.joiningCells state missing cells = Transport.joiningCells basis missing cells := by
  induction cells generalizing basis state missing with
  | nil => cases missing <;> rfl
  | cons cell cells induction =>
      cases missing with
      | zero => rfl
      | succ missing =>
          obtain ⟨answer, after⟩ := lawful.visit_spec history cell
          rw [joiningCells, Transport.joiningCells]
          simp only [answer]
          cases joined : isJoined basis cell with
          | true =>
              rw [joined] at after
              exact induction after (missing + 1)
          | false =>
              rw [joined] at after
              exact congrArg (cell :: ·) (induction after missing)

/-- A completion by roots is the completion by trails. -/
theorem Lawful.spanningBasis_eq {α : Type} [Scalar α] (lawful : forest.Lawful)
    (cost : Table α) (cells : List Cell) (rows cols : Nat) :
    forest.spanningBasis cost cells rows cols =
      Transport.spanningBasis cost cells rows cols := by
  have empty : forest.History forest.initial (List.map Cell.lines []) := .initial
  obtain ⟨agrees, holds⟩ := lawful.foldlM_accept empty (Cell.sort cells)
  rw [spanningBasis, Transport.spanningBasis, acyclic, ← agrees]
  cases run : (Cell.sort cells).foldlM forest.accept ([], forest.initial) with
  | error fault => rfl
  | ok collected =>
      obtain ⟨basis, state⟩ := collected
      have history : forest.History state (basis.map Cell.lines) := holds _ run
      simp only [map_ok, ok_bind, completion, lawful.joiningCells_eq history]
      by_cases short : basis.length < rows + cols - 1
      · rw [if_pos short, if_pos short]
        cases candidates cost basis rows cols <;> rfl
      · rw [if_neg short, if_neg short]
        exact congrArg Except.ok (List.append_nil basis).symm

end Runs

/-! ## Roots as values -/

/-- Classes kept as a root for every line; a union gives the roots of one class to the
other one. -/
def ofRoots : UnionFind (Line → Line) where
  initial := id
  find roots line := (roots line, roots)
  union roots left right line :=
    if roots line = roots left then roots right else roots line

/-- A union keeps the classes and brings those of its two lines together. -/
theorem ofRoots_union_eq_iff {roots : Line → Line} {unions : List (Line × Line)}
    {start finish : Line}
    (holds : ∀ left right : Line, roots left = roots right ↔ Together unions left right)
    (left right : Line) :
    ofRoots.union roots start finish left = ofRoots.union roots start finish right ↔
      Together (unions ++ [(start, finish)]) left right := by
  constructor
  · intro equality
    have kept : ∀ {left right : Line}, roots left = roots right →
        Together (unions ++ [(start, finish)]) left right :=
      fun same => ((holds _ _).mp same).mono fun _ _ listed => List.mem_append_left _ listed
    have united : Together (unions ++ [(start, finish)]) start finish :=
      .rel _ _ (by simp)
    simp only [ofRoots] at equality
    split_ifs at equality with leftMoves rightMoves rightMoves
    · exact kept (leftMoves.trans rightMoves.symm)
    · exact ((kept leftMoves).trans _ _ _ united).trans _ _ _ (kept equality)
    · exact ((kept equality).trans _ _ _ (united.symm _ _)).trans _ _ _
        (kept rightMoves.symm)
    · exact kept equality
  · -- Lines of one root are an equivalence that holds every listed union.
    intro generated
    have equivalence : Equivalence fun left right : Line =>
        ofRoots.union roots start finish left = ofRoots.union roots start finish right :=
      eq_equivalence.comap _
    refine equivalence.eqvGen_iff.mp (generated.mono fun left right listed => ?_)
    rcases List.mem_append.mp listed with old | new
    · have same : roots left = roots right := (holds left right).mpr (.rel _ _ old)
      simp only [ofRoots, same]
    · obtain ⟨rfl, rfl⟩ := Prod.mk.inj (List.mem_singleton.mp new)
      simp [ofRoots]

theorem ofRoots_eq_iff {roots : Line → Line} {unions : List (Line × Line)}
    (history : ofRoots.History roots unions) (left right : Line) :
    roots left = roots right ↔ Together unions left right := by
  induction history generalizing left right with
  | initial =>
      refine ⟨fun same => ?_, fun generated => ?_⟩
      · obtain rfl : left = right := same
        exact .refl left
      · exact eq_equivalence.eqvGen_iff.mp
          (generated.mono fun _ _ listed => absurd listed List.not_mem_nil)
  | find _ _ induction => exact induction left right
  | union _ start finish induction => exact ofRoots_union_eq_iff induction left right

theorem ofRoots_lawful : ofRoots.Lawful := by
  intro roots unions history left right
  rw [← ofRoots_eq_iff history]
  exact decide_eq_true_iff

end UnionFind

/-! ## Refused and completed cells -/

theorem acyclic_eq_error_iff {cells : List Cell} :
    acyclic cells = .error .cyclicPlan ↔ ¬ cells.Nodup ∨ ¬ Loopless cells := by
  have ends : Yields (.cyclicPlan = ·) _ (acyclic cells) := yields_acyclic rfl cells
  cases collected : acyclic cells with
  | error fault =>
      obtain rfl : .cyclicPlan = fault := ends.mayFail_of_eq_error collected
      simp only [true_iff]
      by_contra! both
      rw [acyclic_eq_ok_iff.mpr ⟨rfl, both.2, both.1⟩] at collected
      cases collected
  | ok basis =>
      obtain ⟨-, loopless, nodup⟩ := acyclic_eq_ok_iff.mp collected
      simp [loopless, nodup]

section Table

variable {rows cols : Nat} {cost : Table Number} {cells : List Cell}

theorem spanningBasis_eq_error_iff (shaped : cost.Shaped rows cols) (rowsPositive : 0 < rows)
    (colsPositive : 0 < cols) (inTable : ∀ cell ∈ cells, cell.InTable rows cols) :
    spanningBasis cost cells rows cols = .error .cyclicPlan ↔
      ¬ cells.Nodup ∨ ¬ Loopless cells := by
  constructor
  · intro refused
    by_contra! both
    obtain ⟨added, -, -, completed, -⟩ := spanningBasis_eq_ok Scalar.precedes_number shaped
      rowsPositive colsPositive inTable both.2 both.1
    rw [completed] at refused
    cases refused
  · intro flawed
    have sorted : (Cell.sort cells).Perm cells := List.mergeSort_perm _ _
    have refused : acyclic (Cell.sort cells) = .error .cyclicPlan :=
      acyclic_eq_error_iff.mpr (flawed.imp (mt sorted.nodup_iff.mp)
        (mt fun loopless => loopless.mono sorted.symm.subset))
    rw [spanningBasis, refused]
    rfl

/-- Cells of a table are refused where one is repeated or some form a loop; all others are
completed to a spanning tree.  The roots of any lawful classes of lines lead to the same
outcome as trails. -/
theorem spanningBasis_spans_or_refuses {σ : Type} {forest : UnionFind σ}
    (lawful : forest.Lawful) (shaped : cost.Shaped rows cols) (rowsPositive : 0 < rows)
    (colsPositive : 0 < cols) (inTable : ∀ cell ∈ cells, cell.InTable rows cols) :
    forest.spanningBasis cost cells rows cols = spanningBasis cost cells rows cols ∧
      (spanningBasis cost cells rows cols = .error .cyclicPlan ↔
        ¬ cells.Nodup ∨ ¬ Loopless cells) ∧
      (cells.Nodup → Loopless cells →
        ∃ basis, spanningBasis cost cells rows cols = .ok basis ∧ cells ⊆ basis ∧
          basis.length + 1 = rows + cols ∧ SpanningTree rows cols basis) := by
  refine ⟨lawful.spanningBasis_eq cost cells rows cols,
    spanningBasis_eq_error_iff shaped rowsPositive colsPositive inTable, ?_⟩
  intro nodup loopless
  have sorted : (Cell.sort cells).Perm cells := List.mergeSort_perm _ _
  obtain ⟨added, -, -, completed, tree⟩ := spanningBasis_eq_ok Scalar.precedes_number shaped
    rowsPositive colsPositive inTable loopless nodup
  exact ⟨Cell.sort cells ++ added, completed,
    fun cell member => List.mem_append_left _ (sorted.mem_iff.mpr member),
    tree.length_add_one rowsPositive, tree⟩

theorem roots_complete_pair_and_refuse_square :
    (∃ basis, UnionFind.ofRoots.spanningBasis
        (Table.mapEntries Number.integer [[4, 6, 1], [2, 5, 3]]) [⟨1, 2⟩, ⟨0, 0⟩] 2 3 =
          .ok basis ∧
      [⟨1, 2⟩, ⟨0, 0⟩] ⊆ basis ∧ basis.length = 4 ∧ SpanningTree 2 3 basis) ∧
    UnionFind.ofRoots.spanningBasis (Table.mapEntries Number.integer [[1, 2], [3, 4]])
      [⟨0, 0⟩, ⟨0, 1⟩, ⟨1, 0⟩, ⟨1, 1⟩] 2 2 = .error .cyclicPlan := by
  constructor
  · let cells : List Cell := [⟨1, 2⟩, ⟨0, 0⟩]
    have shaped : (Table.mapEntries Number.integer [[4, 6, 1], [2, 5, 3]]).Shaped 2 3 := by
      decide
    have inTable : ∀ cell ∈ cells, cell.InTable 2 3 := by simp [cells, Cell.InTable]
    have accepted : acyclic cells = .ok cells := by cbv
    obtain ⟨-, loopless, nodup⟩ := acyclic_eq_ok_iff.mp accepted
    obtain ⟨agrees, -, completes⟩ := spanningBasis_spans_or_refuses
      UnionFind.ofRoots_lawful shaped (by decide) (by decide) inTable
    obtain ⟨basis, result, subset, length, tree⟩ := completes nodup loopless
    exact ⟨basis, agrees.trans result, subset, by omega, tree⟩
  · let square : List Cell := [⟨0, 0⟩, ⟨0, 1⟩, ⟨1, 0⟩, ⟨1, 1⟩]
    have shaped : (Table.mapEntries Number.integer [[1, 2], [3, 4]]).Shaped 2 2 := by
      decide
    have inTable : ∀ cell ∈ square, cell.InTable 2 2 := by simp [square, Cell.InTable]
    have refused : acyclic square = .error .cyclicPlan := by cbv
    obtain ⟨agrees, refuses, -⟩ := spanningBasis_spans_or_refuses
      UnionFind.ofRoots_lawful shaped (by decide) (by decide) inTable
    exact agrees.trans (refuses.mpr (acyclic_eq_error_iff.mp refused))

end Table

end OptimalPlans.Transport
