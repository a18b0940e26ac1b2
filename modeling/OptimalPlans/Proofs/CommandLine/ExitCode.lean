import OptimalPlans.CommandLine.Run
import OptimalPlans.Proofs.Dispatch.EscapingFaults

/-!
# Exit codes

A run that is not asked to describe its kind exits with zero when its entry hands over an
outcome of the solver, and with one when a fault stops it or the entry answers that something
went wrong.  There is one exception: arguments that leave an entry without a request make it
describe the kind, and such a run prints the description and exits with zero as well.
-/

namespace OptimalPlans

namespace Dispatch

/-! ## What entries answer -/

/-- An outcome of the solver for a kind. -/
def Answer.Solves (kind : Kind) : Answer → Prop
  | .transport _ => kind = .transportation
  | .assignment _ => kind = .assignment
  | .program _ _ => kind = .linearProgramming
  | .network _ => kind = .networkFlow
  | .prompt _ | .notice _ | .unknownOperation | .tooManyVariables | .infeasible => False

/-- Whether the entry for a kind takes its arguments for a request to describe the kind. -/
def Arguments.describes (arguments : Arguments) : Kind → Bool
  | .transportation | .linearProgramming => (arguments.get 0 "method" .null).isNull
  | .assignment => (arguments.get 0 "agents" .null).isNull &&
      (arguments.get 1 "tasks" .null).isNull && (arguments.get 2 "cost_matrix" .null).isNull
  | .networkFlow => (arguments.get 0 "activities" .null).isNull

section Entries

variable {arguments : Arguments} {answer : Answer} {subject : String} {β : Type}

/-- A guarded attempt only succeeds where the attempt does. -/
theorem attempt_of_rejecting {attempt : Journal β} {value : β}
    (accepted : (rejecting subject attempt).result = .ok (.ok value)) :
    attempt.result = .ok value := by
  obtain ⟨notes, result⟩ := attempt
  cases result with
  | ok found => exact congrArg Except.ok (Except.ok.inj (Except.ok.inj accepted))
  | error fault =>
      rw [result_rejecting_error rfl] at accepted
      split at accepted <;> cases accepted

theorem answer_of_answering {attempt : Journal Answer}
    (answered : (answering subject attempt).result = .ok answer) :
    answer.isFailure = true ∨ attempt.result = .ok answer := by
  rw [answering, Journal.result_bind] at answered
  obtain ⟨outcome, rejected, same⟩ := bind_eq_ok_iff.mp answered
  cases outcome with
  | error text =>
      obtain rfl := Except.ok.inj same
      exact .inl rfl
  | ok found =>
      obtain rfl := Except.ok.inj same
      exact .inr (attempt_of_rejecting rejected)

theorem transportation_solves (asked : arguments.describes .transportation = false)
    (answered : (transportation arguments).result = .ok answer) :
    answer.isFailure = true ∨ answer.Solves .transportation := by
  change (arguments.get 0 "method" .null).isNull = false at asked
  simp only [transportation, asked, Bool.false_eq_true, if_false] at answered
  split at answered
  · obtain rfl := Except.ok.inj answered
    exact .inl rfl
  split at answered
  · split at answered
    · obtain rfl := Except.ok.inj answered
      exact .inl rfl
    · cases answered
  · refine (answer_of_answering answered).imp_right fun solved => ?_
    rw [Journal.result_bind] at solved
    obtain ⟨solution, _, same⟩ := bind_eq_ok_iff.mp solved
    obtain rfl := Except.ok.inj same
    rfl

theorem assignment_solves (asked : arguments.describes .assignment = false)
    (answered : (assignment arguments).result = .ok answer) :
    answer.isFailure = true ∨ answer.Solves .assignment := by
  simp only [Arguments.describes] at asked
  simp only [assignment, asked, Bool.false_eq_true, if_false] at answered
  split at answered
  · obtain rfl := Except.ok.inj answered
    exact .inl rfl
  · refine (answer_of_answering answered).imp_right fun solved => ?_
    simp only [Journal.result_bind, Journal.result_monadLift] at solved
    obtain ⟨_, _, solved⟩ := bind_eq_ok_iff.mp solved
    obtain ⟨_, _, solved⟩ := bind_eq_ok_iff.mp solved
    obtain ⟨_, _, solved⟩ := bind_eq_ok_iff.mp solved
    obtain ⟨_, _, solved⟩ := bind_eq_ok_iff.mp solved
    obtain ⟨_, _, same⟩ := bind_eq_ok_iff.mp solved
    obtain rfl := Except.ok.inj same
    rfl

theorem solveProgram_solves {program : Plane.Program Number}
    (answered : (solveProgram program).result = .ok answer) :
    answer.isFailure = true ∨ answer.Solves .linearProgramming := by
  rw [solveProgram, Journal.result_bind] at answered
  obtain ⟨outcome, _, drawn⟩ := bind_eq_ok_iff.mp answered
  cases outcome with
  | tooManyVariables | infeasible =>
      obtain rfl := Except.ok.inj drawn
      exact .inl rfl
  | solved solution =>
      dsimp only at drawn
      rw [Journal.result_bind] at drawn
      obtain ⟨lines, _, same⟩ := bind_eq_ok_iff.mp drawn
      obtain rfl := Except.ok.inj same
      exact .inr rfl

theorem linearProgramming_solves (asked : arguments.describes .linearProgramming = false)
    (answered : (linearProgramming arguments).result = .ok answer) :
    answer.isFailure = true ∨ answer.Solves .linearProgramming := by
  simp only [Arguments.describes] at asked
  simp only [linearProgramming, asked, Bool.false_eq_true, if_false] at answered
  split at answered
  · obtain rfl := Except.ok.inj answered
    exact .inl rfl
  split at answered
  · obtain rfl := Except.ok.inj answered
    exact .inl rfl
  split at answered
  · obtain rfl := Except.ok.inj answered
    exact .inl rfl
  rw [Journal.result_bind] at answered
  obtain ⟨outcome, _, goesOn⟩ := bind_eq_ok_iff.mp answered
  cases outcome with
  | error text =>
      obtain rfl := Except.ok.inj goesOn
      exact .inl rfl
  | ok program => exact solveProgram_solves goesOn

theorem networkFlow_solves (asked : arguments.describes .networkFlow = false)
    (answered : (networkFlow arguments).result = .ok answer) :
    answer.isFailure = true ∨ answer.Solves .networkFlow := by
  simp only [Arguments.describes] at asked
  simp only [networkFlow, asked, Bool.false_eq_true, if_false] at answered
  rw [Journal.result_bind] at answered
  obtain ⟨outcome, _, goesOn⟩ := bind_eq_ok_iff.mp answered
  cases outcome with
  | error text =>
      obtain rfl := Except.ok.inj goesOn
      exact .inl rfl
  | ok activities =>
      dsimp only at goesOn
      rw [Journal.result_bind] at goesOn
      obtain ⟨analysis, _, same⟩ := bind_eq_ok_iff.mp goesOn
      obtain rfl := Except.ok.inj same
      exact .inr rfl

/-- An entry that is asked to solve answers that something went wrong, or with an outcome of
its solver. -/
theorem operate_solves {kind : Kind} (asked : arguments.describes kind = false)
    (answered : (operate kind arguments).result = .ok answer) :
    answer.isFailure = true ∨ answer.Solves kind := by
  cases kind with
  | transportation => exact transportation_solves asked answered
  | assignment => exact assignment_solves asked answered
  | linearProgramming => exact linearProgramming_solves asked answered
  | networkFlow => exact networkFlow_solves asked answered

/-- An entry that is left without a request describes its kind. -/
theorem operate_describes {kind : Kind} (asked : arguments.describes kind = true) :
    (operate kind arguments).result = .ok (.prompt kind) := by
  cases kind <;> exact congrArg Journal.result (if_pos asked)

end Entries

end Dispatch

namespace CommandLine

open Dispatch (Answer Kind)

/-! ## Requests -/

/-- A problem file and a method that leave the entry for a kind without a request: no method
but a null one, no count or cost but null ones, no activities but null ones.  An objective has
to have a length all the same. -/
def AsksNothing (invocation : Invocation) (fields : Fields) : Kind → Prop
  | .transportation => invocation.method.getD "" = "" ∧
      (fields.getOr "method" (.text "modi")).isNull = true
  | .assignment => (fields.getOr "agents" .null).isNull = true ∧
      (fields.getOr "tasks" .null).isNull = true ∧
      (fields.getOr "cost" (fields.getOr "costMatrix" .null)).isNull = true
  | .linearProgramming => invocation.method.getD "" = "" ∧
      (fields.getOr "method" (.text "graph")).isNull = true ∧
      ∃ size, ProblemFile.objectiveSize (fields.getOr "objective" .null) = .ok size
  | .networkFlow => (fields.getOr "activities" (.list [])).isNull = true

variable {invocation : Invocation} {fields : Fields}

/-- Only a method option that is left out or empty leaves the method to the file. -/
theorem isNull_methodOr (default : String) :
    (ProblemFile.methodOr ((invocation.method.map Value.text).getD .null) fields default).isNull =
        true ↔
      invocation.method.getD "" = "" ∧ (fields.getOr "method" (.text default)).isNull = true := by
  cases given : invocation.method with
  | none => simp [ProblemFile.methodOr, Value.isTruthy]
  | some name =>
      by_cases empty : name = ""
      · subst empty
        simp [ProblemFile.methodOr, Value.isTruthy]
      · simp [ProblemFile.methodOr, Value.isTruthy, Value.isNull, empty]

/-- The arguments of a file that asks nothing are taken for a request to describe the kind. -/
theorem describes_iff {kind : Kind} :
    (∃ arguments, callArguments invocation kind fields = .ok arguments ∧
      arguments.describes kind = true) ↔ AsksNothing invocation fields kind := by
  cases kind with
  | transportation =>
      simp [callArguments, ProblemFile.arguments, Dispatch.Arguments.describes,
        Dispatch.Arguments.get, AsksNothing, isNull_methodOr]
  | assignment =>
      simp [callArguments, ProblemFile.arguments, Dispatch.Arguments.describes,
        Dispatch.Arguments.get, AsksNothing, and_assoc]
  | linearProgramming =>
      cases sized : ProblemFile.objectiveSize (fields.getOr "objective" .null) with
      | error fault => simp [callArguments, ProblemFile.arguments, AsksNothing, sized]
      | ok size =>
          simp [callArguments, ProblemFile.arguments, Dispatch.Arguments.describes,
            Dispatch.Arguments.get, AsksNothing, isNull_methodOr, sized]
  | networkFlow =>
      simp [callArguments, ProblemFile.arguments, Dispatch.Arguments.describes,
        Dispatch.Arguments.get, AsksNothing]

/-! ## Outcomes -/

/-- A command line that names a kind and a file that is read as a JSON object. -/
structure Reads (invocation : Invocation) (contents : String → Except Fault String) (kind : Kind)
    (fields : Fields) : Prop where
  named : Kind.ofName? invocation.problem = some kind
  loaded : ∃ source text, invocation.input = some source ∧ source ≠ "" ∧
    contents source = .ok text ∧ (ProblemFile.load source text).result = .ok fields

section Outcomes

variable {contents : String → Except Fault String} {kind : Kind} {outcome : Outcome}

/-- A run that is not asked to describe its kind calls the entry for it. -/
theorem result_attempt (reads : Reads invocation contents kind fields)
    (solves : invocation.describe = false) :
    (attempt invocation contents).result = (do
      let arguments ← callArguments invocation kind fields
      return .ofAnswer (← (Dispatch.operate kind arguments).result)) := by
  obtain ⟨source, text, input, some, read, loaded⟩ := reads.loaded
  have entered : attempt invocation contents =
      solveFile invocation kind source (contents source) := by
    rw [attempt, reads.named]
    simp only [solves, input, Bool.false_eq_true, if_false]
  rw [entered]
  simp only [solveFile, Journal.result_bind, Journal.result_monadLift, Journal.result_note, read,
    loaded, ok_bind, Journal.result_pure, pure_eq_ok]

theorem result_execute_ok (attempted : (attempt invocation contents).result = .ok outcome) :
    (execute invocation contents).result = .ok outcome := by
  simp only [execute, Journal.recover, attempted]

/-- A fault that stops a run is reported. -/
theorem result_execute_error {fault : Fault}
    (stopped : (attempt invocation contents).result = .error fault) :
    (execute invocation contents).result = .ok .failed := by
  simp only [execute, Journal.recover, stopped]
  rfl

theorem code_ofAnswer_of_isFailure {answer : Answer} (failure : answer.isFailure = true) :
    (Outcome.ofAnswer answer).code = 1 :=
  if_pos failure

theorem ofAnswer_of_solves {answer : Answer} (solves : answer.Solves kind) :
    Outcome.ofAnswer answer = .ofDocument 0 answer.document := by
  cases answer with
  | transport | assignment | program | network => rfl
  | prompt | notice | unknownOperation | tooManyVariables | infeasible => cases solves

/-- A run on a JSON object that is not asked to describe its kind exits with one, or prints an
outcome of the solver and exits with zero, unless the file and the method option leave the
entry without a request.  Then, and only then, it prints the description of the kind, and
exits with zero all the same. -/
theorem exit_code_of_run (reads : Reads invocation contents kind fields)
    (solves : invocation.describe = false) :
    ∃ outcome, (execute invocation contents).result = .ok outcome ∧
      (AsksNothing invocation fields kind →
        outcome = .ofDocument 0 (Answer.prompt kind).document) ∧
      (¬ AsksNothing invocation fields kind → outcome.code = 1 ∨
        ∃ answer : Answer, answer.Solves kind ∧ outcome = .ofDocument 0 answer.document) := by
  have attempted := result_attempt reads solves
  by_cases asks : AsksNothing invocation fields kind
  · obtain ⟨arguments, called, describes⟩ := describes_iff.mpr asks
    rw [called, ok_bind, Dispatch.operate_describes describes, ok_bind] at attempted
    exact ⟨_, result_execute_ok attempted, fun _ => rfl, fun other => absurd asks other⟩
  cases result : (attempt invocation contents).result with
  | error fault =>
      exact ⟨_, result_execute_error result, fun other => absurd other asks, fun _ => .inl rfl⟩
  | ok outcome =>
      refine ⟨outcome, result_execute_ok result, fun other => absurd other asks, fun _ => ?_⟩
      obtain ⟨arguments, called, answered⟩ := bind_eq_ok_iff.mp (attempted.symm.trans result)
      obtain ⟨answer, operated, same⟩ := bind_eq_ok_iff.mp answered
      obtain rfl := Except.ok.inj same
      have asked : arguments.describes kind = false := by
        by_contra described
        exact asks (describes_iff.mp ⟨arguments, called, by simpa using described⟩)
      rcases Dispatch.operate_solves asked operated with failure | solved
      · exact .inl (code_ofAnswer_of_isFailure failure)
      · exact .inr ⟨answer, solved, ofAnswer_of_solves solved⟩

/-- A command line with a kind and the file of its problem. -/
def plainInvocation (problem : String) : Invocation where
  problem := problem
  input := some "p.json"
  method := none
  describe := false
  limit := Transport.defaultLimit
  tolerance := Transport.toleranceBound
  verbose := false

theorem plainInvocation_reads {problem : String} (named : Kind.ofName? problem = some kind) :
    Reads (plainInvocation problem) (fun _ => .ok "\x7b\x7d") kind [] := by
  refine ⟨named, "p.json", "\x7b\x7d", rfl, by decide, rfl, ?_⟩
  cbv

theorem empty_network_is_solved :
    ∃ outcome, (execute (plainInvocation "network_flow") fun _ => .ok "\x7b\x7d").result =
        .ok outcome ∧
      (outcome.code = 1 ∨ ∃ answer : Answer, answer.Solves .networkFlow ∧
        outcome = .ofDocument 0 answer.document) := by
  have reads : Reads (plainInvocation "network_flow") (fun _ => .ok "\x7b\x7d") .networkFlow [] :=
    plainInvocation_reads rfl
  obtain ⟨outcome, result, _, solved⟩ := exit_code_of_run reads rfl
  exact ⟨outcome, result, solved nofun⟩

/-- A solved exit does not always mean a solved problem: for a file without fields the
assignment entry describes itself. -/
theorem empty_assignment_is_described :
    ¬ ∀ (invocation : Invocation) (contents : String → Except Fault String) (kind : Kind)
        (fields : Fields) (outcome : Outcome), Reads invocation contents kind fields →
      invocation.describe = false → (execute invocation contents).result = .ok outcome →
      outcome.code = 0 → outcome ≠ .ofDocument 0 (Answer.prompt kind).document := by
  intro never
  have reads : Reads (plainInvocation "assignment") (fun _ => .ok "\x7b\x7d") .assignment [] :=
    plainInvocation_reads rfl
  have attempted := result_attempt reads rfl
  exact never _ _ .assignment [] _ reads rfl (result_execute_ok attempted) rfl rfl

end Outcomes

end CommandLine

end OptimalPlans
