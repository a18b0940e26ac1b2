import OptimalPlans.Proofs.Exactness

/-!
# Computations that may fail

As soon as doubles take part, an integer may be too large to be rounded and a computation
over numbers need not succeed.  What can be said of it is which faults may stop it and
what holds of its value otherwise.  Both are carried through a sequence of steps and
through the traversal of a list.
-/

namespace OptimalPlans

/-- The outcome is a value of which something is known, or a fault that may happen. -/
def Yields {α : Type} (mayFail : Fault → Prop) (known : α → Prop) : Except Fault α → Prop
  | .ok value => known value
  | .error fault => mayFail fault

namespace Yields

variable {α β : Type} {mayFail : Fault → Prop} {known : α → Prop} {wanted : β → Prop}

@[simp] theorem ok_iff {value : α} : Yields mayFail known (.ok value) ↔ known value := Iff.rfl

theorem of_eq_ok {outcome : Except Fault α} {value : α} (result : outcome = .ok value)
    (holds : known value) : Yields mayFail known outcome := by
  rw [result]
  exact holds

theorem of_faults {outcome : Except Fault α}
    (faults : ∀ fault, outcome = .error fault → mayFail fault) :
    Yields mayFail (fun _ => True) outcome := by
  cases outcome with
  | error fault => exact faults fault rfl
  | ok value => trivial

theorem mayFail_of_eq_error {outcome : Except Fault α} {fault : Fault}
    (yields : Yields mayFail known outcome) (result : outcome = .error fault) :
    mayFail fault := by
  rw [result] at yields
  exact yields

/-- A computation that no fault may stop succeeds. -/
theorem succeeds {outcome : Except Fault α} (yields : Yields (fun _ => False) known outcome) :
    ∃ value, outcome = .ok value ∧ known value := by
  cases outcome with
  | error fault => exact yields.elim
  | ok value => exact ⟨value, rfl, yields⟩

theorem mono {weaker : α → Prop} {outcome : Except Fault α}
    (yields : Yields mayFail known outcome) (implies : ∀ value, known value → weaker value) :
    Yields mayFail weaker outcome := by
  cases outcome with
  | error fault => exact yields
  | ok value => exact implies value yields

theorem bind {first : Except Fault α} {next : α → Except Fault β}
    (begins : Yields mayFail known first)
    (continues : ∀ value, known value → Yields mayFail wanted (next value)) :
    Yields mayFail wanted (first >>= next) := by
  cases first with
  | error fault => exact begins
  | ok value => exact continues value begins

/-- A computation that is refused under a condition goes on where it fails to hold. -/
theorem refusing {condition : Prop} [Decidable condition] {fault : Fault}
    {rest : Except Fault α} (refused : mayFail fault)
    (continues : ¬ condition → Yields mayFail known rest) :
    Yields mayFail known (if condition then .error fault else rest) := by
  by_cases holds : condition
  · rw [if_pos holds]
    exact refused
  · rw [if_neg holds]
    exact continues holds

theorem mapM {compute : α → Except Fault β} {items : List α}
    (each : ∀ item ∈ items, Yields mayFail wanted (compute item)) :
    Yields mayFail (fun values => values.length = items.length ∧ ∀ value ∈ values, wanted value)
      (items.mapM compute) := by
  induction items with
  | nil => exact ⟨rfl, by simp⟩
  | cons item items induction =>
      rw [List.mapM_cons]
      refine (each item (by simp)).bind fun value holds => ?_
      refine (induction fun other member => each other (by simp [member])).bind ?_
      rintro values ⟨length, all⟩
      exact ⟨congrArg (· + 1) length, List.forall_mem_cons.mpr ⟨holds, all⟩⟩

theorem foldlM {step : β → α → Except Fault β} {items : List α} {start : β}
    (begins : wanted start)
    (continues : ∀ item ∈ items, ∀ state, wanted state →
      Yields mayFail wanted (step state item)) :
    Yields mayFail wanted (items.foldlM step start) := by
  induction items generalizing start with
  | nil => exact begins
  | cons item items induction =>
      rw [List.foldlM_cons]
      refine (continues item (by simp) start begins).bind fun next holds => ?_
      exact induction holds fun other member => continues other (by simp [member])

theorem filterBy {test : α → Except Fault Bool} {values : List α}
    (each : ∀ value ∈ values, Yields mayFail (fun _ => True) (test value)) :
    Yields mayFail (· ⊆ values) (Scalar.filterBy test values) := by
  induction values with
  | nil => exact List.nil_subset []
  | cons value values induction =>
      have later := induction fun other member => each other (by simp [member])
      rw [Scalar.filterBy]
      refine (each value (by simp)).bind fun passes _ => ?_
      cases passes with
      | false => exact later.mono fun kept subset => List.subset_cons_of_subset value subset
      | true => exact later.bind fun kept subset => List.cons_subset_cons value subset

end Yields

namespace Number

variable {mayFail : Fault → Prop}

theorem yields_toDouble (overflow : mayFail .integerTooLarge) (number : Number) :
    Yields mayFail (fun _ => True) number.toDouble := by
  cases number with
  | double => trivial
  | integer value =>
      rw [toDouble]
      split
      next => trivial
      next => exact overflow

/-- Arithmetic only fails on an integer that is too large to be rounded. -/
theorem yields_combine (overflow : mayFail .integerTooLarge) (whole : Int → Int → Int)
    (real : Float → Float → Float) (left right : Number) :
    Yields mayFail (fun _ => True) (combine whole real left right) := by
  have computed : Yields mayFail (fun _ => True) (do
      let x ← left.toDouble
      let y ← right.toDouble
      return double (real x y)) :=
    (yields_toDouble overflow left).bind fun _ _ =>
      (yields_toDouble overflow right).bind fun _ _ => trivial
  cases left with
  | double => exact computed
  | integer =>
      cases right with
      | double => exact computed
      | integer => trivial

/-- Any two finite numbers have a difference. -/
theorem sub_eq_ok_of_isFinite {left right : Number} (leftFinite : left.isFinite = .ok true)
    (rightFinite : right.isFinite = .ok true) :
    ∃ difference, Scalar.sub left right = .ok difference := by
  have rounded : ∀ number : Number, number.isFinite = .ok true →
      ∃ real, number.toDouble = .ok real := by
    intro number finite
    cases number with
    | double real => exact ⟨real, rfl⟩
    | integer value =>
        rw [isFinite] at finite
        split at finite
        next fits => exact ⟨_, by rw [toDouble, if_pos fits]⟩
        next => cases finite
  obtain ⟨minuend, leftRounded⟩ := rounded left leftFinite
  obtain ⟨subtrahend, rightRounded⟩ := rounded right rightFinite
  have computed : ∃ difference, (do
      let x ← left.toDouble
      let y ← right.toDouble
      return double (x - y) : Except Fault Number) = .ok difference :=
    ⟨_, by rw [leftRounded, ok_bind, rightRounded, ok_bind, pure_eq_ok]⟩
  cases left with
  | double => exact computed
  | integer =>
      cases right with
      | double => exact computed
      | integer => exact ⟨_, rfl⟩

end Number

end OptimalPlans
