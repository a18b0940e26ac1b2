import OptimalPlans.Proofs.Transport.PlanEmbedding
import OptimalPlans.Proofs.Transport.Shipment
import OptimalPlans.Transport.Validation

/-!
# Accepted problems

Validation only lets tables through that are filled with finite costs and have one
quantity that is not negative for each of their rows and columns.  Where all numbers are
integers, an accepted problem is a valid one over the integers.
-/

namespace OptimalPlans.Transport

/-- A problem as it is after validation, over the integers. -/
structure Problem.Valid (problem : Problem Int) : Prop where
  shaped : problem.cost.Shaped problem.rows problem.cols
  rows_pos : 0 < problem.rows
  cols_pos : 0 < problem.cols
  supply_nonneg : ∀ held ∈ problem.supply, 0 ≤ held
  demand_nonneg : ∀ held ∈ problem.demand, 0 ≤ held

instance (problem : Problem Int) : Decidable problem.Valid :=
  decidable_of_iff (problem.cost.Shaped problem.rows problem.cols ∧ 0 < problem.rows ∧
      0 < problem.cols ∧ (∀ held ∈ problem.supply, 0 ≤ held) ∧ ∀ held ∈ problem.demand, 0 ≤ held)
    ⟨fun ⟨shaped, rows, cols, supply, demand⟩ => ⟨shaped, rows, cols, supply, demand⟩,
      fun valid => ⟨valid.shaped, valid.rows_pos, valid.cols_pos, valid.supply_nonneg,
        valid.demand_nonneg⟩⟩

theorem Table.Shaped.mapEntries {α β : Type} {rows cols : Nat} {table : Table α}
    (shaped : table.Shaped rows cols) (f : α → β) :
    (table.mapEntries f).Shaped rows cols := by
  refine ⟨by simpa [Table.mapEntries] using shaped.length_eq, fun row member => ?_⟩
  obtain ⟨source, sourceMember, rfl⟩ := List.mem_map.mp member
  simpa using shaped.row_length_eq source sourceMember

/-- What validation guarantees of a problem. -/
structure Problem.Accepted (problem : Problem Number) : Prop where
  shaped : problem.cost.Shaped problem.rows problem.cols
  rows_pos : 0 < problem.rows
  cols_pos : 0 < problem.cols
  cost_finite : ∀ row ∈ problem.cost, ∀ unit ∈ row, unit.isFinite = .ok true
  supply_nonneg : ∀ held ∈ problem.supply, held.less (.integer 0) = false
  demand_nonneg : ∀ held ∈ problem.demand, held.less (.integer 0) = false

theorem length_elements {value : Value} {count : Nat} {items : List Value}
    (counted : value.length = .ok count) (listed : value.elements = .ok items) :
    items.length = count := by
  cases value with
  | text characters =>
      obtain rfl := Except.ok.inj counted
      obtain rfl := Except.ok.inj listed
      rw [List.length_map, String.length_toList]
  | list held =>
      obtain rfl := Except.ok.inj counted
      obtain rfl := Except.ok.inj listed
      rfl
  | record fields =>
      obtain rfl := Except.ok.inj counted
      obtain rfl := Except.ok.inj listed
      simp
  | null => cases counted
  | truth => cases counted
  | number => cases counted

theorem isFinite_of_finiteNumber? {value : Value} {number : Number}
    (found : finiteNumber? value = .ok (some number)) : number.isFinite = .ok true := by
  obtain ⟨finite, tested, result⟩ := bind_eq_ok_iff.mp found
  cases finite with
  | false => cases result
  | true =>
      cases value with
      | number held =>
          obtain rfl := Option.some.inj (Except.ok.inj result)
          exact tested
      | null => cases tested
      | truth => cases tested
      | text => cases tested
      | list => cases tested
      | record => cases tested

theorem costRow_accepts {name : String} {cols : Nat} {row : Value} {units : List Number}
    (accepted : costRow name cols row = .ok units) :
    units.length = cols ∧ ∀ unit ∈ units, unit.isFinite = .ok true := by
  simp only [costRow, throw_eq_error, error_bind, refused_eq_ok_iff, bind_eq_ok_iff,
    not_not] at accepted
  obtain ⟨count, counted, rfl, items, listed, read⟩ := accepted
  obtain ⟨length, each⟩ := length_of_mapM read
  refine ⟨length.trans (length_elements counted listed), fun unit member => ?_⟩
  obtain ⟨value, _, tested⟩ := each unit member
  obtain ⟨found, finite, result⟩ := bind_eq_ok_iff.mp tested
  cases found with
  | none => cases result
  | some number =>
      obtain rfl := Except.ok.inj result
      exact isFinite_of_finiteNumber? finite

theorem costMatrix_accepts {name : String} {value : Value} {cost : Table Number}
    {cols : Nat} (accepted : costMatrix name value = .ok (cost, cols)) :
    0 < cost.length ∧ 0 < cols ∧ cost.Shaped cost.length cols ∧
      ∀ row ∈ cost, ∀ unit ∈ row, unit.isFinite = .ok true := by
  simp only [costMatrix, throw_eq_error, error_bind, refused_eq_ok_iff, bind_eq_ok_iff,
    pure_eq_ok, Except.ok.injEq, Prod.mk.injEq] at accepted
  obtain ⟨_, count, counted, some, _, _, width, _, positive, items, listed, table, read, rfl,
    rfl⟩ := accepted
  obtain ⟨length, each⟩ := length_of_mapM read
  have same := length_elements counted listed
  have rows : ∀ row ∈ table, row.length = width ∧ ∀ unit ∈ row, unit.isFinite = .ok true := by
    intro row member
    obtain ⟨_, _, result⟩ := each row member
    exact costRow_accepts result
  exact ⟨by omega, by omega, ⟨rfl, fun row member => (rows row member).1⟩,
    fun row member => (rows row member).2⟩

theorem quantities_accepts {name : String} {expected : Nat} {value : Value}
    {held : List Number} (accepted : quantities name expected value = .ok held) :
    held.length = expected ∧ ∀ quantity ∈ held, quantity.less (.integer 0) = false := by
  simp only [quantities, throw_eq_error, error_bind, refused_eq_ok_iff, bind_eq_ok_iff,
    not_not] at accepted
  obtain ⟨_, count, counted, _, rfl, items, listed, read⟩ := accepted
  obtain ⟨length, each⟩ := length_of_mapM read
  refine ⟨length.trans (length_elements counted listed), fun quantity member => ?_⟩
  obtain ⟨value, _, tested⟩ := each quantity member
  obtain ⟨found, _, result⟩ := bind_eq_ok_iff.mp tested
  cases found with
  | none => cases result
  | some number =>
      obtain ⟨nonneg, result⟩ := refused_eq_ok_iff.mp result
      obtain rfl := Except.ok.inj result
      simpa using nonneg

theorem readProblem_accepts {cost supply demand : Value} {problem : Problem Number}
    (accepted : readProblem cost supply demand = .ok problem) : problem.Accepted := by
  simp only [readProblem, throw_eq_error, error_bind, refused_eq_ok_iff, bind_eq_ok_iff,
    pure_eq_ok, Except.ok.injEq] at accepted
  obtain ⟨_, ⟨table, cols⟩, tabled, held, supplied, wanted, demanded, rfl⟩ := accepted
  obtain ⟨rowsPositive, colsPositive, shaped, finite⟩ := costMatrix_accepts tabled
  obtain ⟨rows, supplyNonneg⟩ := quantities_accepts supplied
  obtain ⟨rfl, demandNonneg⟩ := quantities_accepts demanded
  refine ⟨?_, ?_, colsPositive, finite, supplyNonneg, demandNonneg⟩
  · unfold Problem.rows
    rw [rows]
    exact shaped
  · unfold Problem.rows
    rw [rows]
    exact rowsPositive

/-- A problem that validation returns is an accepted one. -/
theorem validate_accepts {cost supply demand : Value} {problem : Problem Number}
    (accepted : (validate cost supply demand).result = .ok problem) : problem.Accepted := by
  simp only [validate, Journal.result_bind, Journal.result_monadLift] at accepted
  obtain ⟨held, read, afterRead⟩ := bind_eq_ok_iff.mp accepted
  obtain ⟨_, _, afterSupply⟩ := bind_eq_ok_iff.mp afterRead
  obtain ⟨_, _, result⟩ := bind_eq_ok_iff.mp afterSupply
  have same : held = problem := by
    split at result <;> simpa using result
  exact same ▸ readProblem_accepts read

theorem nonneg_of_accepted {quantities : List Int}
    (nonneg : ∀ held ∈ quantities.map Number.integer, held.less (.integer 0) = false) :
    ∀ held ∈ quantities, 0 ≤ held := by
  intro held member
  have tested := nonneg _ (List.mem_map_of_mem member)
  simpa [Number.less] using tested

/-- An accepted problem of integers is valid. -/
theorem Problem.Accepted.valid {problem : Problem Int}
    (accepted : (problem.map Number.integer).Accepted) : problem.Valid := by
  have shaped := accepted.shaped
  have rowsPositive := accepted.rows_pos
  have colsPositive := accepted.cols_pos
  rw [Problem.rows_map] at shaped rowsPositive
  rw [Problem.cols_map] at shaped colsPositive
  refine ⟨⟨?_, fun row member => ?_⟩, rowsPositive, colsPositive,
    nonneg_of_accepted accepted.supply_nonneg, nonneg_of_accepted accepted.demand_nonneg⟩
  · simpa [Problem.map, Table.mapEntries] using shaped.length_eq
  · simpa using shaped.row_length_eq _ (List.mem_map_of_mem member)

end OptimalPlans.Transport
