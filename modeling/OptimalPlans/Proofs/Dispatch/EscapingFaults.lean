import OptimalPlans.Proofs.Assignment.CheapestAssignment
import OptimalPlans.Proofs.Dispatch.Readings
import OptimalPlans.Proofs.Precedence.TopologicalOrder
import OptimalPlans.Proofs.Transport.RuleFaults

/-!
# Faults that leave the dispatch table

The entries answer malformed input with a text.  What still leaves them is an integer that
is too large to be rounded, an infinite count, a record where a cost matrix is expected, and
a method that cannot be looked up.  Nothing else does: no look-up fails, no loop is missing,
and a network is always analysed.
-/

namespace OptimalPlans

variable {mayFail : Fault → Prop}

/-! ## Solvers -/

section Solvers

variable (malformed : ∀ fault, fault.isMalformedInput = true → mayFail fault)
  (overflow : mayFail .integerTooLarge)

theorem Transport.Method.yields_ofValue
    (malformed : ∀ fault, fault.isMalformedInput = true → mayFail fault) (value : Value) :
    Yields mayFail (fun _ => True) (ofValue value) := by
  refine (value.yields_lookedUp malformed).bind fun looked _ => ?_
  split
  · split
    · trivial
    · exact malformed _ rfl
  · exact malformed _ rfl

include malformed overflow

theorem Transport.yields_solve (method : Value) {cost : Value} (supply demand : Value)
    (keyed : ∀ field fields, cost = .record (field :: fields) → mayFail (.absentKey "0"))
    {limit : Except Fault Int} (limited : Yields mayFail (fun _ => True) limit)
    {tolerance : Except Fault Number} (tolerated : Yields mayFail (fun _ => True) tolerance) :
    Yields mayFail (fun _ => True)
      (solve method cost supply demand limit tolerance).result := by
  simp only [solve, Journal.result_bind, Journal.result_monadLift, Journal.result_note]
  refine (Method.yields_ofValue malformed method).bind fun rule _ => ?_
  refine (yields_validate malformed overflow supply demand keyed).bind fun problem accepted => ?_
  exact accepted.yields_solveBy overflow (malformed _ rfl) rule limited tolerated

namespace Assignment

open Transport

omit malformed overflow in
theorem taskOf_lt {n : Nat} {partner : Vector (Option (Fin n)) n} {cols agent : Nat} :
    ∀ task, taskOf partner cols agent = some task → task < cols := by
  unfold taskOf
  refine foldl_invariant (fun _ found => ∀ task, found = some task → task < cols) (by simp) ?_
  intro _ col found _ holds
  split
  next taken =>
      rintro _ ⟨rfl⟩
      exact of_decide_eq_true (Bool.and_eq_true_iff.mp taken).2
  next => exact holds

omit malformed in
/-- Only real tasks are read off a matching, so their costs are in the table. -/
theorem yields_ofTasks {costs : Table Number} {cols : Nat}
    (shaped : costs.Shaped costs.length cols) {n : Nat}
    (partner : Vector (Option (Fin n)) n) :
    Yields mayFail (fun _ => True)
      (Result.ofTasks costs ((List.range costs.length).map (taskOf partner cols))) := by
  have total : Yields mayFail (fun _ => True)
      (totalOf costs (pairsOf ((List.range costs.length).map (taskOf partner cols)))) := by
    refine Yields.foldlM trivial ?_
    rintro ⟨agent, task⟩ member total _
    rw [pairsOf_map_range] at member
    obtain ⟨agentBound, given⟩ := mem_givenPairs.mp member
    refine (shaped.yields_entry ⟨agentBound, taskOf_lt task given⟩).bind fun cost _ => ?_
    exact Number.yields_combine overflow _ _ total cost
  exact total.bind fun _ _ => trivial

omit malformed in
/-- A table of costs has an assignment. -/
theorem yields_assign {costs : Table Number} {cols : Nat}
    (shaped : costs.Shaped costs.length cols) (some : 0 < costs.length) :
    Yields mayFail (fun _ => True) (assign Number.toDouble costs) := by
  have line : ∀ row ∈ costs, Yields mayFail (fun measured => measured.length = cols)
      (row.mapM Number.toDouble) := by
    intro row member
    have each := Yields.mapM fun number (_ : number ∈ row) =>
      Number.yields_toDouble overflow number
    exact each.mono fun measured holds => holds.1.trans (shaped.row_length_eq row member)
  refine (Yields.mapM line).bind ?_
  rintro measured ⟨height, width⟩
  have firstWidth : (measured.headD []).length = cols := by
    cases measured with
    | nil => exact absurd height some.ne
    | cons first later => exact width first (by simp)
  unfold cheapestTasks
  rw [height, firstWidth]
  exact yields_ofTasks overflow shaped _

theorem yields_solve (agents tasks : Value) {cost : Value}
    (keyed : ∀ field fields, cost = .record (field :: fields) → mayFail (.absentKey "0")) :
    Yields mayFail (fun _ => True) (solve agents tasks cost).result := by
  cases checked : costMatrix costMatrixName cost with
  | error fault =>
      have refused : (solve agents tasks cost).result = .error fault := by
        simp only [solve, Journal.result_bind, Journal.result_monadLift, checked, error_bind]
      rw [refused]
      exact (yields_costMatrix malformed overflow costMatrixName keyed).mayFail_of_eq_error checked
  | ok table =>
      obtain ⟨costs, cols⟩ := table
      obtain ⟨some, _, shaped, _⟩ := costMatrix_accepts checked
      have refused : ∀ _ : ¬ (agents.same (.integer costs.length) = true ∧
          tasks.same (.integer cols) = true), (solve agents tasks cost).result =
            .error (.shapeMismatch costs.length cols agents.shown tasks.shown) := by
        intro disagree
        have tested : (!agents.same (.integer costs.length) || !tasks.same (.integer cols)) =
            true := by simpa [Decidable.imp_iff_not_or] using disagree
        simp only [solve, Journal.result_bind, Journal.result_monadLift, checked, ok_bind, tested,
          if_true, Journal.result_throw, error_bind]
      by_cases agree : agents.same (.integer costs.length) = true ∧
          tasks.same (.integer cols) = true
      · rw [solve_result checked agree.1 agree.2]
        exact yields_assign overflow shaped some
      · rw [refused agree]
        exact malformed _ rfl

end Assignment

end Solvers

/-! ## Networks -/

/-- A network can always be analysed. -/
theorem Precedence.analyse_succeeds (activities : List Activity) :
    ∃ analysis, (analyse activities).result = .ok analysis := by
  obtain ⟨nodup, listed, _, sorted⟩ := depthFirstOrder_sound (closed_successors activities)
  rw [result_analyse]
  split
  · exact ⟨_, rfl⟩
  next acyclic =>
      have ordered := sorted (Bool.eq_false_iff.mpr acyclic)
      have ready : ∀ seen name,
          seen ++ [name] <+: (depthFirstOrder (successors activities)).2 →
          (predecessors activities).targets name ⊆ seen := by
        intro seen name opens before member
        have precedes := mem_targets_predecessors.mp member
        have known := (listed before).mpr (mem_names_successors.mpr precedes.named.1)
        exact mem_of_idxOf_lt opens nodup
          (ordered.idxOf_lt nodup known (leads_successors_iff.mpr precedes)).2
      obtain ⟨layers, layered, placed⟩ := layersAlong_eq_ok ready
      obtain ⟨nodes, drawn⟩ := grid_eq_ok placed defaultSpacing
      exact ⟨_, by simp only [layered, drawn, ok_bind, pure_eq_ok]; rfl⟩

namespace Dispatch

/-! ## Entries -/

/-- The argument that an entry reads as a cost matrix. -/
def Arguments.matrix? (arguments : Arguments) : Kind → Option Value
  | .transportation => some (arguments.get 1 "cost" .null)
  | .assignment => some (arguments.get 2 "cost_matrix" .null)
  | .linearProgramming | .networkFlow => none

/-- The arguments that an entry reads as counts. -/
def Arguments.counts (arguments : Arguments) : Kind → List Value
  | .assignment => [arguments.get 0 "agents" .null, arguments.get 1 "tasks" .null]
  | .linearProgramming => [arguments.get 1 "variable_count" .null]
  | .transportation | .networkFlow => []

/-- The faults that may leave the entry for a kind. -/
inductive Escapes (arguments : Arguments) : Kind → Fault → Prop where
  | tooLarge {kind : Kind} (numeric : kind ≠ .networkFlow) :
      Escapes arguments kind .integerTooLarge
  | infinite {kind : Kind} {count : Value} (counted : count ∈ arguments.counts kind)
      (none : count.toInteger = .error .infinityToInteger) :
      Escapes arguments kind .infinityToInteger
  | keyed {kind : Kind} {field : String × Value} {fields : Fields}
      (given : arguments.matrix? kind = some (.record (field :: fields))) :
      Escapes arguments kind (.absentKey "0")
  | unhashable {fault : Fault}
      (refused : (arguments.get 0 "method" .null).lookedUp = .error fault) :
      Escapes arguments .transportation fault

/-- What an entry answers for its kind: the description of the kind, a text, or an outcome of
its solver. -/
def Answer.Fits (kind : Kind) : Answer → Prop
  | .prompt described => described = kind
  | .notice _ => True
  | .unknownOperation => False
  | .transport _ => kind = .transportation
  | .assignment _ => kind = .assignment
  | .tooManyVariables | .infeasible | .program _ _ => kind = .linearProgramming
  | .network _ => kind = .networkFlow

variable {β : Type} {subject : String}

theorem result_rejecting_error {attempt : Journal β} {fault : Fault}
    (failed : attempt.result = .error fault) :
    (rejecting subject attempt).result =
      if fault.isMalformedInput then .ok (.error fault.message) else .error fault := by
  obtain ⟨notes, result⟩ := attempt
  obtain rfl : result = .error fault := failed
  have handed : (Except.ok <$> (⟨notes, .error fault⟩ : Journal β) : Journal (Except String β)) =
      ⟨notes, .error fault⟩ := rfl
  rw [rejecting, handed]
  by_cases caught : fault.isMalformedInput = true
  · simp only [Journal.recover, if_pos caught]
    rfl
  · simp only [Journal.recover, if_neg caught]

/-- Malformed input does not leave an attempt that is guarded against it. -/
theorem yields_rejecting {known : β → Prop} {attempt : Journal β}
    (attempted : Yields (fun fault => fault.isMalformedInput = true ∨ mayFail fault) known
      attempt.result) :
    Yields mayFail (fun outcome => ∀ value, outcome = .ok value → known value)
      (rejecting subject attempt).result := by
  cases result : attempt.result with
  | ok value =>
      rw [result] at attempted
      obtain ⟨notes, _⟩ := attempt
      obtain rfl := result
      rintro _ ⟨rfl⟩
      exact attempted
  | error fault =>
      rw [result_rejecting_error result]
      split
      next => simp
      next other => exact (attempted.mayFail_of_eq_error result).resolve_left other

theorem yields_answering {kind : Kind} {attempt : Journal Answer}
    (attempted : Yields (fun fault => fault.isMalformedInput = true ∨ mayFail fault)
      (Answer.Fits kind) attempt.result) :
    Yields mayFail (Answer.Fits kind) (answering subject attempt).result := by
  rw [answering, Journal.result_bind]
  refine (yields_rejecting attempted).bind fun outcome fits => ?_
  cases outcome with
  | error text => trivial
  | ok answer => exact fits answer rfl

/-- A program of doubles is solved and drawn. -/
theorem yields_solveProgram {program : Plane.Program Number} (double : program.IsDouble) :
    Yields mayFail (Answer.Fits .linearProgramming) (solveProgram program).result := by
  rw [solveProgram, Journal.result_bind]
  refine double.yields_solve.bind fun outcome constraintsDouble => ?_
  cases outcome with
  | tooManyVariables | infeasible => rfl
  | solved solution =>
      dsimp only
      rw [Journal.result_bind, Journal.result_monadLift]
      exact (Plane.yields_lines (constraintsDouble solution rfl)).bind fun _ _ => rfl

section Entries

variable (arguments : Arguments)

/-- Only a method that cannot be looked up is neither found nor unknown. -/
theorem method_escapes {fault : Fault}
    (refused : Transport.Method.ofValue (arguments.get 0 "method" .null) = .error fault)
    (other : fault.family ≠ .badValue) : Escapes arguments .transportation fault := by
  cases looked : (arguments.get 0 "method" .null).lookedUp with
  | error met =>
      rw [Transport.Method.ofValue, looked] at refused
      obtain rfl : met = fault := Except.error.inj refused
      exact .unhashable looked
  | ok value =>
      rw [Transport.Method.ofValue, looked, ok_bind] at refused
      split at refused
      · split at refused
        · cases refused
        · exact absurd (Except.error.inj refused ▸ rfl) other
      · exact absurd (Except.error.inj refused ▸ rfl) other

theorem yields_transportation :
    Yields (Escapes arguments .transportation) (Answer.Fits .transportation)
      (transportation arguments).result := by
  dsimp only [transportation]
  split
  · rfl
  split
  · trivial
  -- The method is looked up before the guarded attempt, so its faults are not answered there.
  cases named : Transport.Method.ofValue (arguments.get 0 "method" .null) with
  | error fault =>
      dsimp only
      split
      · trivial
      next other => exact method_escapes arguments named other
  | ok method =>
      refine yields_answering ?_
      rw [Journal.result_bind]
      refine Yields.bind (Transport.yields_solve (fun _ malformed => .inl malformed)
        (.inr (.tooLarge nofun)) _ _ _ ?_ ?_ ?_) fun _ _ => rfl
      · exact fun field fields given => .inr (.keyed (congrArg some given))
      · exact Value.yields_toCount (fun _ malformed => .inl malformed) _
      · exact Value.yields_toSigned (fun _ malformed => .inl malformed) _

theorem yields_declaredCount (declared : Value) {counted : Except Fault Nat}
    (counts : Yields mayFail (fun _ => True) counted) :
    Yields mayFail (fun value => value = declared ∨ ∃ count : Nat, value = .integer count)
      (declaredCount declared counted) := by
  unfold declaredCount
  split
  · exact counts.bind fun count _ => .inr ⟨count, rfl⟩
  · exact .inl rfl

/-- The length of the first row is found, or zero without rows. -/
theorem yields_width (malformed : ∀ fault, fault.isMalformedInput = true → mayFail fault)
    {cost : Value}
    (keyed : ∀ field fields, cost = .record (field :: fields) → mayFail (.absentKey "0")) :
    Yields mayFail (fun _ => True) (do
      if (← cost.length) = 0 then return 0 else (← cost.first).length) := by
  cases counted : cost.length with
  | error fault => exact (cost.yields_length malformed).mayFail_of_eq_error counted
  | ok count =>
      rw [ok_bind]
      split
      · trivial
      next some =>
          exact (Value.yields_first malformed counted some keyed).bind fun first _ =>
            first.yields_length malformed

theorem yields_assignment :
    Yields (Escapes arguments .assignment) (Answer.Fits .assignment) (assignment arguments).result := by
  dsimp only [assignment]
  split
  · rfl
  split
  · trivial
  refine yields_answering ?_
  simp only [Journal.result_bind, Journal.result_monadLift]
  generalize given : arguments.get 2 "cost_matrix" .null = cost
  have malformed : ∀ fault : Fault, fault.isMalformedInput = true →
      fault.isMalformedInput = true ∨ Escapes arguments .assignment fault :=
    fun _ malformed => .inl malformed
  have keyed : ∀ field fields, cost = .record (field :: fields) →
      (Fault.absentKey "0").isMalformedInput = true ∨
        Escapes arguments .assignment (.absentKey "0") :=
    fun field fields same => .inr (.keyed (congrArg some (given.trans same)))
  -- Lines that were counted are finite; a declared count need not be.
  have counts : ∀ declared ∈ arguments.counts .assignment, ∀ value,
      (value = declared ∨ ∃ count : Nat, value = .integer count) →
      Yields (fun fault => fault.isMalformedInput = true ∨ Escapes arguments .assignment fault)
        (fun _ => True) value.toInteger := by
    rintro declared counted value (rfl | ⟨count, rfl⟩)
    · exact value.yields_toInteger malformed fun none => .inr (.infinite counted none)
    · trivial
  refine (yields_declaredCount _ (cost.yields_length malformed)).bind fun agents agentsKnown => ?_
  refine (yields_declaredCount _ (yields_width malformed keyed)).bind fun tasks tasksKnown => ?_
  refine (counts _ (by simp [Arguments.counts]) agents agentsKnown).bind fun rows _ => ?_
  refine (counts _ (by simp [Arguments.counts]) tasks tasksKnown).bind fun cols _ => ?_
  exact (Assignment.yields_solve malformed (.inr (.tooLarge nofun)) _ _ keyed).bind
    fun _ _ => rfl

theorem yields_linearProgramming :
    Yields (Escapes arguments .linearProgramming) (Answer.Fits .linearProgramming)
      (linearProgramming arguments).result := by
  dsimp only [linearProgramming]
  split
  · rfl
  split
  · trivial
  split
  · trivial
  split
  · trivial
  rw [Journal.result_bind]
  refine (yields_rejecting (Plane.yields_readProgram (fun _ malformed => .inl malformed)
    (.inr (.tooLarge nofun)) (fun none => .inr (.infinite (List.mem_singleton.mpr rfl) none))
      _ _ _)).bind fun outcome double => ?_
  cases outcome with
  | error text => trivial
  | ok program => exact yields_solveProgram (double program rfl)

theorem yields_networkFlow :
    Yields (Escapes arguments .networkFlow) (Answer.Fits .networkFlow) (networkFlow arguments).result := by
  dsimp only [networkFlow]
  split
  · rfl
  have read : Yields (fun fault => fault.isMalformedInput = true ∨
      Escapes arguments .networkFlow fault) (fun _ => True) (do
        (← (arguments.get 0 "activities" .null).elements).mapM Precedence.Activity.ofValue) := by
    refine (Value.yields_elements (fun _ malformed => .inl malformed) _).bind fun values _ => ?_
    exact (Yields.mapM fun value _ => Precedence.Activity.yields_ofValue
      (fun _ malformed => .inl malformed) value).mono fun _ _ => trivial
  rw [Journal.result_bind]
  refine (yields_rejecting read).bind fun outcome _ => ?_
  cases outcome with
  | error text => trivial
  | ok activities =>
      obtain ⟨analysis, analysed⟩ := Precedence.analyse_succeeds activities
      dsimp only
      rw [Journal.result_bind, analysed]
      rfl

/-- A call of a kind by one of its names, whatever its arguments are, is answered with a
description of the kind, a text or an outcome of its solver, unless one of the faults leaves
the entry that may. -/
theorem call_answers_or_escapes {name : String} {kind : Kind}
    (named : Kind.ofName? name = some kind) (arguments : Arguments) :
    (∃ answer, (call (.text name) arguments).result = .ok answer ∧ answer.Fits kind) ∨
      ∃ fault, (call (.text name) arguments).result = .error fault ∧
        Escapes arguments kind fault := by
  have operated : Yields (Escapes arguments kind) (Answer.Fits kind)
      (operate kind arguments).result := by
    cases kind with
    | transportation => exact yields_transportation arguments
    | assignment => exact yields_assignment arguments
    | linearProgramming => exact yields_linearProgramming arguments
    | networkFlow => exact yields_networkFlow arguments
  have called : (call (.text name) arguments).result = (operate kind arguments).result := by
    have resolved : Kind.resolve (.text name) = .ok (some kind) := congrArg Except.ok named
    simp only [call, Journal.result_bind, Journal.result_monadLift, resolved, ok_bind]
  rw [called]
  cases result : (operate kind arguments).result with
  | ok answer => exact .inl ⟨answer, rfl, Yields.ok_iff.mp (result ▸ operated)⟩
  | error fault => exact .inr ⟨fault, rfl, operated.mayFail_of_eq_error result⟩

theorem networkFlow_never_escapes (fault : Fault) : ¬ Escapes arguments .networkFlow fault := by
  intro escapes
  cases escapes with
  | tooLarge numeric => exact numeric rfl
  | infinite counted => cases counted
  | keyed given => cases given

theorem record_of_activities_is_answered :
    ∃ answer, (call (.text "networkFlowProblem")
      ⟨[.record [("a", .null), ("b", .truth true)]], []⟩).result = .ok answer ∧
        answer.Fits .networkFlow := by
  have named : Kind.ofName? "networkFlowProblem" = some .networkFlow := rfl
  refine (call_answers_or_escapes named _).resolve_right ?_
  rintro ⟨fault, _, escapes⟩
  exact networkFlow_never_escapes _ fault escapes

/-- Not every call is answered: a list as a method cannot be looked up, and that fault leaves
the entry. -/
theorem list_of_methods_escapes :
    ¬ ∀ (name : String) (kind : Kind) (arguments : Arguments), Kind.ofName? name = some kind →
      ∃ answer, (call (.text name) arguments).result = .ok answer := by
  intro always
  let arguments : Arguments :=
    ⟨[.list [], .list [.list [.integer 1]], .list [.integer 1], .list [.integer 1]], []⟩
  obtain ⟨answer, result⟩ := always "transportation" .transportation arguments rfl
  have escapes : (call (.text "transportation") arguments).result =
      .error (.unhashable "list") := rfl
  rw [escapes] at result
  cases result

end Entries

end Dispatch

end OptimalPlans
