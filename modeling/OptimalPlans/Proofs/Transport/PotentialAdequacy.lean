import OptimalPlans.Proofs.Transport.LoopBalance
import OptimalPlans.Transport.Potential

/-!
# Adequacy of potentials

The lines of a forest can be priced so that every cell costs what its two lines are
worth.  Sweeping over cells finds only what is known of the first row and carried along
the cells, and once a sweep finds nothing new the two lines of a cell are resolved
together.  On a spanning tree every line of the table is therefore resolved.
-/

namespace OptimalPlans.Transport

/-- Prices of the lines that every cell of a list costs. -/
def Prices (cost : Table Int) (cells : List Cell) (price : Line → Int) : Prop :=
  ∀ cell ∈ cells, cost.price cell = price (.row cell.row) + price (.col cell.col)

/-- Raising the rows and lowering the columns by one amount keeps the sums. -/
theorem Prices.shift {cost : Table Int} {cells : List Cell} {price : Line → Int}
    (prices : Prices cost cells price) (amount : Int) :
    Prices cost cells fun line => price line + line.side * amount := by
  intro cell member
  rw [prices cell member]
  simp only [Line.side]
  ring

/-- The lines of a forest can be priced, whatever its cells are to cost. -/
theorem Loopless.exists_worth (cost : Cell → Int) {cells : List Cell}
    (loopless : Loopless cells) (nodup : cells.Nodup) :
    ∃ price : Line → Int, ∀ cell ∈ cells,
      cost cell = price (.row cell.row) + price (.col cell.col) := by
  classical
  induction cells with
  | nil => exact ⟨fun _ => 0, by simp⟩
  | cons cell rest induction =>
      obtain ⟨absent, restNodup⟩ := List.nodup_cons.mp nodup
      have within : rest ⊆ cell :: rest := List.subset_cons_self _ _
      have apart : ¬ Joined rest (.row cell.row) (.col cell.col) :=
        loopless.apart (by simp) within absent
      obtain ⟨price, prices⟩ := induction (loopless.mono within) restNodup
      -- The lines joined to the column are shifted so that the new cell fits.
      let gap := price (.row cell.row) + price (.col cell.col) - cost cell
      let shifted : Line → Int := fun line =>
        if Joined rest (.col cell.col) line then price line + line.side * gap
        else price line
      refine ⟨shifted, fun other member => ?_⟩
      rcases List.mem_cons.mp member with rfl | later
      · have rowKept : shifted (.row other.row) = price (.row other.row) :=
          if_neg fun joined => apart joined.symm
        have colShifted : shifted (.col other.col) = price (.col other.col) - gap := by
          simp only [shifted, if_pos (Joined.refl _), Line.side]
          ring
        rw [rowKept, colShifted]
        omega
      · have together : Joined rest (.col cell.col) (.row other.row) ↔
            Joined rest (.col cell.col) (.col other.col) :=
          ⟨fun joined => joined.trans (Joined.of_mem later),
            fun joined => joined.trans (Joined.of_mem later).symm⟩
        by_cases joined : Joined rest (.col cell.col) (.row other.row)
        · simp only [shifted, if_pos joined, if_pos (together.mp joined), Line.side]
          rw [prices other later]
          ring
        · have separate := fun reached => joined (together.mpr reached)
          simp only [shifted, if_neg joined, if_neg separate]
          exact prices other later

theorem Loopless.exists_prices (cost : Table Int) {cells : List Cell}
    (loopless : Loopless cells) (nodup : cells.Nodup) :
    ∃ price, Prices cost cells price :=
  loopless.exists_worth cost.price nodup

/-- The lines of a forest can be priced with any line of side one at zero. -/
theorem Loopless.exists_prices_from (cost : Table Int) {cells : List Cell}
    (loopless : Loopless cells) (nodup : cells.Nodup) (index : Nat) :
    ∃ price, Prices cost cells price ∧ price (.row index) = 0 := by
  obtain ⟨price, prices⟩ := loopless.exists_prices cost nodup
  refine ⟨_, prices.shift (-price (.row index)), ?_⟩
  simp only [Line.side]
  ring

namespace Potentials

/-- The price of a line, if it is resolved. -/
def at? {α : Type} (potentials : Potentials α) : Line → Option α
  | .row index => potentials.rows[index]?.join
  | .col index => potentials.cols[index]?.join

/-- Potentials of a table of which every resolved one is the given price. -/
structure Agrees (rows cols : Nat) (price : Line → Int) (potentials : Potentials Int) :
    Prop where
  rows_length : potentials.rows.length = rows
  cols_length : potentials.cols.length = cols
  sound : ∀ line value, potentials.at? line = some value → value = price line

/-- Potentials of a table of which every resolved one is known to be a price of its
line. -/
structure Respects (rows cols : Nat) (known : Line → Int → Prop)
    (potentials : Potentials Int) : Prop where
  rows_length : potentials.rows.length = rows
  cols_length : potentials.cols.length = cols
  sound : ∀ line value, potentials.at? line = some value → known line value

/-- What is known of the price of one line of a cell is carried over to the other. -/
structure Carries (cost : Table Int) (known : Line → Int → Prop) (cell : Cell) : Prop where
  toCol : ∀ value, known (.row cell.row) value →
    known (.col cell.col) (cost.price cell - value)
  toRow : ∀ value, known (.col cell.col) value →
    known (.row cell.row) (cost.price cell - value)

/-- Prices that the cells cost are carried along them. -/
theorem Carries.of_prices {cost : Table Int} {cells : List Cell} {price : Line → Int}
    (prices : Prices cost cells price) {cell : Cell} (member : cell ∈ cells) :
    Carries cost (fun line value => value = price line) cell := by
  have costs := prices cell member
  constructor <;> rintro _ rfl <;> omega

/-- Potentials that resolve what others do, and more unless they are the same. -/
structure Extends (potentials next : Potentials Int) : Prop where
  keeps : ∀ line value, potentials.at? line = some value → next.at? line = some value
  unresolved_le : next.unresolved ≤ potentials.unresolved
  eq_of_unresolved : next.unresolved = potentials.unresolved → next = potentials

theorem Extends.refl (potentials : Potentials Int) : Extends potentials potentials :=
  ⟨fun _ _ => id, le_rfl, fun _ => rfl⟩

theorem Extends.trans {first second third : Potentials Int} (later : Extends second third)
    (early : Extends first second) : Extends first third := by
  refine ⟨fun line value found => later.keeps line value (early.keeps line value found),
    later.unresolved_le.trans early.unresolved_le, fun equal => ?_⟩
  have bounds := early.unresolved_le
  have more := later.unresolved_le
  have same := later.eq_of_unresolved (by omega)
  rw [same, early.eq_of_unresolved (by omega)]

/-- The two lines of a cell are resolved together. -/
def Settled (potentials : Potentials Int) (cell : Cell) : Prop :=
  (potentials.at? (.row cell.row)).isSome ↔ (potentials.at? (.col cell.col)).isSome

/-- Resolves a line. -/
def put (potentials : Potentials Int) (line : Line) (value : Int) : Potentials Int :=
  match line with
  | .row index => { potentials with rows := potentials.rows.set index (some value) }
  | .col index => { potentials with cols := potentials.cols.set index (some value) }

section Put

variable {potentials : Potentials Int} {line : Line}

theorem at?_put (value : Int)
    (inTable : line.InTable potentials.rows.length potentials.cols.length)
    (other : Line) :
    (potentials.put line value).at? other =
      if other = line then some value else potentials.at? other := by
  cases line with
  | row index =>
      have bound : index < potentials.rows.length := inTable
      cases other with
      | row place =>
          by_cases same : place = index
          · simp [put, at?, same, bound]
          · simp [put, at?, same, Ne.symm same]
      | col place => simp [put, at?]
  | col index =>
      have bound : index < potentials.cols.length := inTable
      cases other with
      | row place => simp [put, at?]
      | col place =>
          by_cases same : place = index
          · simp [put, at?, same, bound]
          · simp [put, at?, same, Ne.symm same]

theorem countP_isNone_set {values : List (Option Int)} {index : Nat} (value : Int)
    (bound : index < values.length) (missing : values[index]?.join = none) :
    (values.set index (some value)).countP (·.isNone) < values.countP (·.isNone) := by
  have known : values[index] = none := by simpa [bound] using missing
  have positive : 0 < values.countP (·.isNone) :=
    List.countP_pos_iff.mpr ⟨none, known ▸ List.getElem_mem bound, rfl⟩
  rw [List.countP_set bound, known]
  simpa using positive

theorem unresolved_put (value : Int)
    (inTable : line.InTable potentials.rows.length potentials.cols.length)
    (missing : potentials.at? line = none) :
    (potentials.put line value).unresolved < potentials.unresolved := by
  cases line with
  | row index => exact Nat.add_lt_add_right (countP_isNone_set value inTable missing) _
  | col index => exact Nat.add_lt_add_left (countP_isNone_set value inTable missing) _

theorem extends_put (value : Int)
    (inTable : line.InTable potentials.rows.length potentials.cols.length)
    (missing : potentials.at? line = none) :
    Extends potentials (potentials.put line value) := by
  have fewer := unresolved_put value inTable missing
  refine ⟨fun other held found => ?_, fewer.le, fun equal => absurd equal fewer.ne⟩
  have different : other ≠ line := by
    rintro rfl
    rw [missing] at found
    cases found
  rw [at?_put value inTable, if_neg different, found]

theorem Respects.put {rows cols : Nat} {known : Line → Int → Prop}
    (respects : potentials.Respects rows cols known) {value : Int}
    (inTable : line.InTable rows cols) (correct : known line value) :
    (potentials.put line value).Respects rows cols known := by
  have bound : line.InTable potentials.rows.length potentials.cols.length := by
    rw [respects.rows_length, respects.cols_length]
    exact inTable
  refine ⟨?_, ?_, fun other held found => ?_⟩
  · cases line <;> simp [Potentials.put, respects.rows_length]
  · cases line <;> simp [Potentials.put, respects.cols_length]
  · rw [at?_put value bound] at found
    split at found
    next same =>
        rw [same, ← Option.some.inj found]
        exact correct
    next => exact respects.sound other held found

end Put

section Sweep

variable {rows cols : Nat} {cost : Table Int} {known : Line → Int → Prop}
  {cells : List Cell} {potentials : Potentials Int}

theorem entryAt_rows {α : Type} {potentials : Potentials α} {index : Nat}
    (bound : index < potentials.rows.length) :
    entryAt potentials.rows index = .ok (potentials.at? (.row index)) := by
  simp [entryAt_eq_ok bound, at?, bound]

theorem entryAt_cols {α : Type} {potentials : Potentials α} {index : Nat}
    (bound : index < potentials.cols.length) :
    entryAt potentials.cols index = .ok (potentials.at? (.col index)) := by
  simp [entryAt_eq_ok bound, at?, bound]

/-- Resolving a cell settles it and keeps what is known. -/
theorem resolve_eq_ok (shaped : cost.Shaped rows cols) {cell : Cell}
    (inTable : cell.InTable rows cols) (carries : Carries cost known cell)
    (respects : potentials.Respects rows cols known) :
    ∃ next, resolve cost potentials cell = .ok next ∧ next.Respects rows cols known ∧
      Extends potentials next ∧ next.Settled cell := by
  have row : entryAt potentials.rows cell.row = .ok (potentials.at? (.row cell.row)) :=
    entryAt_rows (respects.rows_length ▸ inTable.1)
  have col : entryAt potentials.cols cell.col = .ok (potentials.at? (.col cell.col)) :=
    entryAt_cols (respects.cols_length ▸ inTable.2)
  have rowInTable : (Line.row cell.row).InTable rows cols := inTable.1
  have colInTable : (Line.col cell.col).InTable rows cols := inTable.2
  have entry := shaped.entry_eq_ok inTable
  unfold resolve
  rw [row, col, ok_bind, ok_bind, entry]
  cases rowPrice : potentials.at? (.row cell.row) with
  | none =>
      cases colPrice : potentials.at? (.col cell.col) with
      | none => exact ⟨potentials, rfl, respects, Extends.refl _, by simp [Settled, *]⟩
      | some v =>
          have correct := carries.toRow v (respects.sound _ _ colPrice)
          have bound : (Line.row cell.row).InTable potentials.rows.length
              potentials.cols.length := by
            rwa [respects.rows_length, respects.cols_length]
          refine ⟨potentials.put (.row cell.row) (cost.price cell - v), rfl,
            respects.put rowInTable correct, extends_put _ bound rowPrice, ?_⟩
          simp [Settled, at?_put _ bound, colPrice]
  | some u =>
      cases colPrice : potentials.at? (.col cell.col) with
      | none =>
          have correct := carries.toCol u (respects.sound _ _ rowPrice)
          have bound : (Line.col cell.col).InTable potentials.rows.length
              potentials.cols.length := by
            rwa [respects.rows_length, respects.cols_length]
          refine ⟨potentials.put (.col cell.col) (cost.price cell - u), rfl,
            respects.put colInTable correct, extends_put _ bound colPrice, ?_⟩
          simp [Settled, at?_put _ bound, rowPrice]
      | some v => exact ⟨potentials, rfl, respects, Extends.refl _, by simp [Settled, *]⟩

/-- A sweep keeps what is known, and one that finds nothing new leaves every cell
settled. -/
theorem sweep_eq_ok (shaped : cost.Shaped rows cols)
    (inTable : ∀ cell ∈ cells, cell.InTable rows cols)
    (carries : ∀ cell ∈ cells, Carries cost known cell)
    (respects : potentials.Respects rows cols known) :
    ∃ next, potentials.sweep cost cells = .ok next ∧ next.Respects rows cols known ∧
      Extends potentials next ∧ (next = potentials → ∀ cell ∈ cells, next.Settled cell) := by
  induction cells generalizing potentials with
  | nil => exact ⟨potentials, rfl, respects, Extends.refl _, by simp⟩
  | cons cell rest induction =>
      obtain ⟨middle, first, middleRespects, early, settled⟩ :=
        resolve_eq_ok shaped (inTable cell (by simp)) (carries cell (by simp)) respects
      obtain ⟨next, later, nextRespects, late, rest⟩ :=
        induction (fun other member => inTable other (by simp [member]))
          (fun other member => carries other (by simp [member])) middleRespects
      refine ⟨next, ?_, nextRespects, late.trans early, fun same => ?_⟩
      · rw [sweep, List.foldlM_cons, first, ok_bind]
        exact later
      · subst same
        -- Both parts of the sweep have found nothing.
        have unchanged : next = middle := by
          apply late.eq_of_unresolved
          have bounds := early.unresolved_le
          have more := late.unresolved_le
          omega
        intro other member
        rcases List.mem_cons.mp member with rfl | laterMember
        · rw [unchanged]
          exact settled
        · exact rest unchanged other laterMember

/-- Sweeping ends with every cell settled and keeps what is known. -/
theorem settle_eq_ok (shaped : cost.Shaped rows cols)
    (inTable : ∀ cell ∈ cells, cell.InTable rows cols)
    (carries : ∀ cell ∈ cells, Carries cost known cell)
    (respects : potentials.Respects rows cols known) :
    ∃ final, settle cost cells potentials = .ok final ∧ final.Respects rows cols known ∧
      Extends potentials final ∧ ∀ cell ∈ cells, final.Settled cell := by
  induction size : potentials.unresolved using Nat.strong_induction_on
    generalizing potentials with
  | _ size induction =>
      obtain ⟨next, swept, nextRespects, extended, settled⟩ :=
        sweep_eq_ok shaped inTable carries respects
      rw [settle, swept, ok_bind]
      by_cases fewer : next.unresolved < potentials.unresolved
      · obtain ⟨final, result, finalRespects, later, all⟩ :=
          induction next.unresolved (size ▸ fewer) nextRespects rfl
        rw [if_pos fewer]
        exact ⟨final, result, finalRespects, later.trans extended, all⟩
      · rw [if_neg fewer]
        have same : next = potentials := by
          apply extended.eq_of_unresolved
          have bound := extended.unresolved_le
          omega
        exact ⟨next, rfl, nextRespects, extended, settled same⟩

end Sweep

/-! ## Potentials of a basis -/

/-- The potentials of a table of which every line is resolved. -/
def priced (rows cols : Nat) (price : Line → Int) : Potentials Int where
  rows := (List.range rows).map fun index => some (price (.row index))
  cols := (List.range cols).map fun index => some (price (.col index))

theorem at?_priced {rows cols : Nat} {price : Line → Int} {line : Line}
    (inTable : line.InTable rows cols) :
    (priced rows cols price).at? line = some (price line) := by
  cases line with
  | row index =>
      have bound : index < rows := inTable
      simp [priced, at?, bound]
  | col index =>
      have bound : index < cols := inTable
      simp [priced, at?, bound]

theorem Agrees.eq_priced {rows cols : Nat} {price : Line → Int}
    {potentials : Potentials Int} (agrees : potentials.Agrees rows cols price)
    (resolved : ∀ line : Line, line.InTable rows cols → (potentials.at? line).isSome) :
    potentials = priced rows cols price := by
  have value : ∀ line : Line, line.InTable rows cols →
      potentials.at? line = some (price line) := by
    intro line inTable
    obtain ⟨held, found⟩ := Option.isSome_iff_exists.mp (resolved line inTable)
    rw [found, agrees.sound line held found]
  obtain ⟨rowValues, colValues⟩ := potentials
  simp only [priced, Potentials.mk.injEq]
  constructor
  · apply List.ext_getElem
    · simpa using agrees.rows_length
    · intro index bound _
      have inRange : index < rows := agrees.rows_length ▸ bound
      simpa [at?, bound] using value (.row index) inRange
  · apply List.ext_getElem
    · simpa using agrees.cols_length
    · intro index bound _
      have inRange : index < cols := agrees.cols_length ▸ bound
      simpa [at?, bound] using value (.col index) inRange

/-- Whatever the cells of a table are, their potentials settle every cell and keep what is
known of the first row and carried along the cells. -/
theorem ofBasis_respects {rows cols : Nat} {cost : Table Int} {cells : List Cell}
    {known : Line → Int → Prop} (shaped : cost.Shaped rows cols) (positive : 0 < rows)
    (inTable : ∀ cell ∈ cells, cell.InTable rows cols) (origin : known (.row 0) 0)
    (carries : ∀ cell ∈ cells, Carries cost known cell) :
    ∃ potentials, ofBasis cost cells rows cols = .ok potentials ∧
      potentials.Respects rows cols known ∧ potentials.at? (.row 0) = some 0 ∧
      ∀ cell ∈ cells, potentials.Settled cell := by
  obtain ⟨later, rfl⟩ := Nat.exists_eq_add_of_lt positive
  rw [zero_add] at shaped inTable ⊢
  have sorted : (Cell.sort cells).Perm cells := List.mergeSort_perm _ _
  let first : Potentials Int :=
    { rows := some 0 :: List.replicate later none, cols := List.replicate cols none }
  have respects : first.Respects (later + 1) cols known := by
    refine ⟨by simp [first], by simp [first], fun line value found => ?_⟩
    cases line with
    | row index =>
        cases index with
        | zero =>
            obtain rfl : 0 = value := by simpa [first, at?] using found
            exact origin
        | succ index => simp [first, at?, List.getElem?_replicate, apply_ite] at found
    | col index => simp [first, at?, List.getElem?_replicate, apply_ite] at found
  obtain ⟨final, result, finalRespects, extended, settled⟩ :=
    settle_eq_ok shaped (fun cell member => inTable cell (sorted.mem_iff.mp member))
      (fun cell member => carries cell (sorted.mem_iff.mp member)) respects
  refine ⟨final, result, finalRespects, extended.keeps _ _ (by simp [first, at?]), ?_⟩
  exact fun cell member => settled cell (sorted.mem_iff.mpr member)

/-- Once every cell is settled, the lines that are joined to the first row are resolved. -/
theorem isSome_of_joined {potentials : Potentials Int} {cells : List Cell} {line : Line}
    (start : potentials.at? (.row 0) = some 0)
    (settled : ∀ cell ∈ cells, potentials.Settled cell)
    (joined : Joined cells (.row 0) line) : (potentials.at? line).isSome := by
  apply joined.carries
  · exact settled
  · rw [start]
    rfl

/-- The potentials of a spanning tree are the prices of its lines. -/
theorem ofBasis_eq_ok {rows cols : Nat} {cost : Table Int} {basis : List Cell}
    {price : Line → Int} (shaped : cost.Shaped rows cols) (positive : 0 < rows)
    (tree : SpanningTree rows cols basis) (prices : Prices cost basis price)
    (origin : price (.row 0) = 0) :
    ofBasis cost basis rows cols = .ok (priced rows cols price) := by
  obtain ⟨final, result, respects, start, settled⟩ :=
    ofBasis_respects shaped positive tree.inTable origin.symm
      fun cell member => .of_prices prices member
  have agrees : final.Agrees rows cols price :=
    ⟨respects.rows_length, respects.cols_length, respects.sound⟩
  rw [result, agrees.eq_priced fun line inTable =>
    isSome_of_joined start settled (tree.joined _ _ positive inTable)]

end Potentials

end OptimalPlans.Transport
