import Mathlib
import OptimalPlans.Scalar

/-!
# Computations without faults

Integers and rationals compute exactly, so a computation over them succeeds as soon as
each of its steps does.  The lemmas here turn such a computation into the pure one: the
sequencing of steps, the traversals of lists, and the operations of the two exact
scalars.
-/

namespace OptimalPlans

section Sequencing

variable {ε α β : Type}

@[simp] theorem ok_bind (value : α) (next : α → Except ε β) :
    (Except.ok value >>= next) = next value := rfl

@[simp] theorem error_bind (fault : ε) (next : α → Except ε β) :
    ((Except.error fault : Except ε α) >>= next) = .error fault := rfl

@[simp] theorem pure_eq_ok (value : α) :
    (pure value : Except ε α) = .ok value := rfl

@[simp] theorem throw_eq_error (fault : ε) :
    (throw fault : Except ε α) = .error fault := rfl

theorem bind_eq_ok_iff {first : Except ε α} {next : α → Except ε β} {result : β} :
    (first >>= next) = .ok result ↔
      ∃ value, first = .ok value ∧ next value = .ok result := by
  cases first with
  | error fault => simp
  | ok value => simp

/-- A computation that is refused under a condition goes on where it fails to hold. -/
theorem refused_eq_ok_iff {condition : Prop} [Decidable condition] {fault : ε}
    {rest : Except ε α} {result : α} :
    (if condition then .error fault else rest) = .ok result ↔
      ¬ condition ∧ rest = .ok result := by
  by_cases holds : condition <;> simp [holds]

/-- A step that succeeds hands what is known of its outcome to the next one. -/
theorem bind_succeeds {known : α → Prop} {wanted : β → Prop} {first : Except ε α}
    {next : α → Except ε β} (begins : ∃ value, first = .ok value ∧ known value)
    (continues : ∀ value, known value →
      ∃ result, next value = .ok result ∧ wanted result) :
    ∃ result, (first >>= next) = .ok result ∧ wanted result := by
  obtain ⟨value, rfl, holds⟩ := begins
  exact continues value holds

theorem mapM_eq_ok {compute : α → Except ε β} {value : α → β} {items : List α}
    (agrees : ∀ item ∈ items, compute item = .ok (value item)) :
    items.mapM compute = .ok (items.map value) := by
  induction items with
  | nil => rfl
  | cons item items induction =>
      have first : compute item = .ok (value item) := agrees item (by simp)
      have later : items.mapM compute = .ok (items.map value) :=
        induction fun other member => agrees other (by simp [member])
      simp [List.mapM_cons, first, later]

theorem mapM_succeeds {known : α → β → Prop} {compute : α → Except ε β} {items : List α}
    (each : ∀ item ∈ items, ∃ value, compute item = .ok value ∧ known item value) :
    ∃ values, items.mapM compute = .ok values ∧ values.length = items.length ∧
      ∀ value ∈ values, ∃ item ∈ items, known item value := by
  induction items with
  | nil => exact ⟨[], rfl, rfl, by simp⟩
  | cons item items induction =>
      obtain ⟨value, first, holds⟩ := each item (by simp)
      obtain ⟨values, later, length, all⟩ :=
        induction fun other member => each other (by simp [member])
      refine ⟨value :: values, by simp [List.mapM_cons, first, later], by simp [length], ?_⟩
      intro other member
      rcases List.mem_cons.mp member with rfl | rest
      · exact ⟨item, by simp, holds⟩
      · obtain ⟨source, sourceMember, known⟩ := all other rest
        exact ⟨source, by simp [sourceMember], known⟩

theorem mapM_total {compute : α → Except ε β} {items : List α}
    (each : ∀ item ∈ items, ∃ value, compute item = .ok value) :
    ∃ values, items.mapM compute = .ok values := by
  have known : ∀ item ∈ items, ∃ value, compute item = .ok value ∧ True := by
    intro item member
    obtain ⟨value, computed⟩ := each item member
    exact ⟨value, computed, trivial⟩
  obtain ⟨values, result, _⟩ := mapM_succeeds known
  exact ⟨values, result⟩

/-- The results of a traversal that succeeds come from its items, one each. -/
theorem length_of_mapM {compute : α → Except ε β} {items : List α}
    {results : List β} (computed : items.mapM compute = .ok results) :
    results.length = items.length ∧
      ∀ result ∈ results, ∃ item ∈ items, compute item = .ok result := by
  induction items generalizing results with
  | nil =>
      obtain rfl : [] = results := Except.ok.inj computed
      simp
  | cons item items induction =>
      rw [List.mapM_cons] at computed
      obtain ⟨first, firstComputed, later⟩ := bind_eq_ok_iff.mp computed
      obtain ⟨rest, restComputed, same⟩ := bind_eq_ok_iff.mp later
      obtain rfl : first :: rest = results := Except.ok.inj same
      obtain ⟨length, each⟩ := induction restComputed
      refine ⟨congrArg (· + 1) length, ?_⟩
      rintro result (_ | ⟨_, member⟩)
      · exact ⟨item, by simp, firstComputed⟩
      · obtain ⟨source, sourceMember, sourceComputed⟩ := each result member
        exact ⟨source, by simp [sourceMember], sourceComputed⟩

/-- Every item of a traversal that succeeds has a result. -/
theorem exists_of_mapM {compute : α → Except ε β} {items : List α} {results : List β}
    (computed : items.mapM compute = .ok results) :
    ∀ item ∈ items, ∃ result, compute item = .ok result := by
  induction items generalizing results with
  | nil => simp
  | cons item items induction =>
      rw [List.mapM_cons] at computed
      obtain ⟨first, firstComputed, later⟩ := bind_eq_ok_iff.mp computed
      obtain ⟨rest, restComputed, _⟩ := bind_eq_ok_iff.mp later
      rintro other (_ | ⟨_, member⟩)
      · exact ⟨first, firstComputed⟩
      · exact induction restComputed other member

theorem foldlM_eq_ok {step : β → α → Except ε β} (next : β → α → β) {items : List α}
    {start : β} (agrees : ∀ item ∈ items, ∀ state,
      step state item = .ok (next state item)) :
    items.foldlM step start = .ok (items.foldl next start) := by
  induction items generalizing start with
  | nil => rfl
  | cons item items induction =>
      have first : step start item = .ok (next start item) := agrees item (by simp) start
      rw [List.foldlM_cons, first, ok_bind, List.foldl_cons]
      exact induction fun other member => agrees other (by simp [member])

theorem mapM_congr {compute other : α → Except ε β} {items : List α}
    (agrees : ∀ item ∈ items, compute item = other item) :
    items.mapM compute = items.mapM other := by
  induction items with
  | nil => rfl
  | cons item items induction =>
      rw [List.mapM_cons, List.mapM_cons, agrees item (by simp),
        induction fun other member => agrees other (by simp [member])]

theorem foldlM_congr {step other : β → α → Except ε β} {items : List α} {start : β}
    (agrees : ∀ item ∈ items, ∀ state, step state item = other state item) :
    items.foldlM step start = items.foldlM other start := by
  induction items generalizing start with
  | nil => rfl
  | cons item items induction =>
      rw [List.foldlM_cons, List.foldlM_cons, agrees item (by simp)]
      exact congrArg _ (funext fun next =>
        induction fun other member => agrees other (by simp [member]))

/-- A traversal whose every step succeeds and keeps an invariant of the items seen, which
open the list. -/
theorem foldlM_prefix_invariant {step : β → α → Except ε β} (invariant : List α → β → Prop)
    {items : List α} {start : β} (begins : invariant [] start)
    (continues : ∀ seen item state, seen ++ [item] <+: items → invariant seen state →
      ∃ next, step state item = .ok next ∧ invariant (seen ++ [item]) next) :
    ∃ final, items.foldlM step start = .ok final ∧ invariant items final := by
  suffices collected : ∀ later seen state, seen ++ later = items → invariant seen state →
      ∃ final, later.foldlM step state = .ok final ∧ invariant items final from
    collected items [] start rfl begins
  intro later
  induction later with
  | nil =>
      intro seen state whole holds
      rw [List.append_nil] at whole
      exact ⟨state, rfl, whole ▸ holds⟩
  | cons item rest induction =>
      intro seen state whole holds
      have split : (seen ++ [item]) ++ rest = items := by simpa using whole
      obtain ⟨next, first, nextHolds⟩ := continues seen item state ⟨rest, split⟩ holds
      obtain ⟨final, result, finalHolds⟩ := induction (seen ++ [item]) next split nextHolds
      refine ⟨final, ?_, finalHolds⟩
      rw [List.foldlM_cons, first, ok_bind]
      exact result

/-- A traversal whose every step succeeds and keeps an invariant of the items seen. -/
theorem foldlM_invariant {step : β → α → Except ε β} (invariant : List α → β → Prop)
    {items : List α} {start : β} (begins : invariant [] start)
    (continues : ∀ seen item state, invariant seen state → item ∈ items →
      ∃ next, step state item = .ok next ∧ invariant (seen ++ [item]) next) :
    ∃ final, items.foldlM step start = .ok final ∧ invariant items final :=
  foldlM_prefix_invariant invariant begins fun seen item state opens holds =>
    continues seen item state holds (opens.subset (by simp))

/-- A pure traversal whose every step keeps an invariant of the items seen. -/
theorem foldl_invariant {step : β → α → β} (invariant : List α → β → Prop)
    {items : List α} {start : β} (begins : invariant [] start)
    (continues : ∀ seen item state, seen ++ [item] <+: items → invariant seen state →
      invariant (seen ++ [item]) (step state item)) :
    invariant items (items.foldl step start) := by
  suffices collected : ∀ later seen state, seen ++ later = items → invariant seen state →
      invariant items (later.foldl step state) from collected items [] start rfl begins
  intro later
  induction later with
  | nil =>
      intro seen state whole holds
      rw [List.append_nil] at whole
      exact whole ▸ holds
  | cons item rest induction =>
      intro seen state whole holds
      have split : (seen ++ [item]) ++ rest = items := by simpa using whole
      exact induction _ _ split (continues seen item state ⟨rest, split⟩ holds)

end Sequencing

namespace Scalar

section Integers

variable (a b : Int)

@[simp] theorem ofInt_int (n : Int) : (ofInt n : Int) = n := rfl
@[simp] theorem add_int : add a b = .ok (a + b) := rfl
@[simp] theorem sub_int : sub a b = .ok (a - b) := rfl
@[simp] theorem mul_int : mul a b = .ok (a * b) := rfl
@[simp] theorem same_int : same a b = decide (a = b) := by
  simp only [same, beq_eq_decide]
@[simp] theorem less_int : less a b = .ok (decide (a < b)) := rfl
@[simp] theorem greater_int : greater a b = .ok (decide (b < a)) := rfl
@[simp] theorem greaterEq_int : greaterEq a b = .ok (decide (b ≤ a)) := rfl

@[simp] theorem isPositive_int : isPositive a = .ok (decide (0 < a)) := rfl

@[simp] theorem isZero_int : isZero a = decide (a = 0) := by
  simp [isZero]

theorem precedes_int : precedes a b = .ok (decide (a < b)) := by
  by_cases same : a = b <;> simp [precedes, same]

theorem smaller_int : smaller a b = .ok (min a b) := by
  by_cases less : b < a
  · simp [smaller, less, min_eq_right less.le]
  · simp [smaller, less, min_eq_left (not_lt.mp less)]

end Integers

section Rationals

variable (a b : Rat)

@[simp] theorem ofInt_rat (n : Int) : (ofInt n : Rat) = n := rfl
@[simp] theorem add_rat : add a b = .ok (a + b) := rfl
@[simp] theorem sub_rat : sub a b = .ok (a - b) := rfl
@[simp] theorem mul_rat : mul a b = .ok (a * b) := rfl
@[simp] theorem less_rat : less a b = .ok (decide (a < b)) := rfl
@[simp] theorem lessEq_rat : lessEq a b = .ok (decide (a ≤ b)) := rfl
@[simp] theorem greater_rat : greater a b = .ok (decide (b < a)) := rfl

@[simp] theorem abs_rat : abs a = .ok |a| := by
  by_cases negative : a < 0
  · simp [abs, negative, abs_of_neg negative]
  · simp [abs, negative, abs_of_nonneg (not_lt.mp negative)]

end Rationals

/-- Numbers are always listed in some order. -/
theorem precedes_number (a b : Number) :
    precedes a b = .ok (!a.same b && a.less b) := by
  cases equal : a.same b <;> simp [precedes, Scalar.same, Scalar.less, equal]

section Lists

variable {β : Type}

theorem filterBy_eq_ok {test : β → Except Fault Bool} {passes : β → Bool}
    {values : List β} (agrees : ∀ value ∈ values, test value = .ok (passes value)) :
    filterBy test values = .ok (values.filter passes) := by
  induction values with
  | nil => rfl
  | cons value values induction =>
      have first : test value = .ok (passes value) := agrees value (by simp)
      have later : filterBy test values = .ok (values.filter passes) :=
        induction fun other member => agrees other (by simp [member])
      cases passed : passes value <;>
        simp [filterBy, first, later, passed]

/-- What a search compares after its first step was there from the start. -/
theorem mem_of_step {best value next other : β} {values : List β} (chosen : next ∈ [best, value])
    (member : other ∈ next :: values) : other ∈ best :: value :: values := by
  simp only [List.mem_cons, List.not_mem_nil, or_false] at chosen
  rcases chosen with rfl | rfl <;> rcases List.mem_cons.mp member with rfl | later <;>
    simp [*]

/-- A search among values that can be compared ends with one of them. -/
theorem pick_eq_ok {beats : β → β → Except Fault Bool} {best : β} {values : List β}
    (decides : ∀ left ∈ best :: values, ∀ right ∈ best :: values,
      ∃ answer, beats left right = .ok answer) :
    ∃ picked ∈ best :: values, pick beats best values = .ok picked := by
  induction values generalizing best with
  | nil => exact ⟨best, by simp, rfl⟩
  | cons value values induction =>
      obtain ⟨answer, decided⟩ := decides value (by simp) best (by simp)
      have goesOn : ∀ next ∈ [best, value],
          ∃ picked ∈ best :: value :: values, pick beats next values = .ok picked := by
        intro next chosen
        obtain ⟨picked, member, result⟩ := induction fun left leftMember right rightMember =>
          decides left (mem_of_step chosen leftMember) right (mem_of_step chosen rightMember)
        exact ⟨picked, mem_of_step chosen member, result⟩
      rw [pick, decided, ok_bind]
      cases answer with
      | true => exact goesOn value (by simp)
      | false => exact goesOn best (by simp)

/-- A search depends on the comparisons of its values only. -/
theorem pick_congr {beats other : β → β → Except Fault Bool} {best : β} {values : List β}
    (agrees : ∀ left ∈ best :: values, ∀ right ∈ best :: values,
      beats left right = other left right) :
    pick beats best values = pick other best values := by
  induction values generalizing best with
  | nil => rfl
  | cons value values induction =>
      have goesOn : ∀ next ∈ [best, value], pick beats next values = pick other next values :=
        fun next chosen => induction fun left leftMember right rightMember =>
          agrees left (mem_of_step chosen leftMember) right (mem_of_step chosen rightMember)
      rw [pick, pick, agrees value (by simp) best (by simp), goesOn value (by simp),
        goesOn best (by simp)]

theorem insertFromEnd_eq_ok {less : β → β → Except Fault Bool} {below : β → β → Bool}
    (agrees : ∀ left right, less left right = .ok (below left right))
    (value : β) (values : List β) :
    ∃ inserted, insertFromEnd less value values = .ok inserted ∧
      inserted.Perm (value :: values) := by
  induction values with
  | nil => exact ⟨[value], rfl, List.Perm.refl _⟩
  | cons last rest induction =>
      cases smaller : below value last with
      | true =>
          obtain ⟨inserted, result, permutation⟩ := induction
          refine ⟨last :: inserted, ?_, ?_⟩
          · simp [insertFromEnd, agrees, smaller, result]
          · exact (permutation.cons last).trans (List.Perm.swap value last rest)
      | false =>
          exact ⟨value :: last :: rest, by simp [insertFromEnd, agrees, smaller],
            List.Perm.refl _⟩

/-- Sorting by an exact order only rearranges. -/
theorem sortBy_eq_ok {less : β → β → Except Fault Bool} {below : β → β → Bool}
    (agrees : ∀ left right, less left right = .ok (below left right))
    (values : List β) :
    ∃ sorted, sortBy less values = .ok sorted ∧ sorted.Perm values := by
  suffices collected : ∀ done, ∃ descending,
      values.foldlM (fun done value => insertFromEnd less value done) done =
        .ok descending ∧ descending.Perm (done ++ values) by
    obtain ⟨descending, result, permutation⟩ := collected []
    refine ⟨descending.reverse, by simp [sortBy, result], ?_⟩
    exact (List.reverse_perm descending).trans permutation
  induction values with
  | nil => exact fun done => ⟨done, rfl, by simp⟩
  | cons value values induction =>
      intro done
      obtain ⟨inserted, first, inserts⟩ := insertFromEnd_eq_ok agrees value done
      obtain ⟨descending, later, permutation⟩ := induction inserted
      refine ⟨descending, by simp [List.foldlM_cons, first, later], ?_⟩
      calc descending.Perm (inserted ++ values) := permutation
        _ |>.Perm (value :: done ++ values) := inserts.append_right values
        _ |>.Perm (done ++ value :: values) := List.perm_middle.symm

section Keys

variable {γ : Type} [LinearOrder γ] {key : β → γ} {less : β → β → Except Fault Bool}

theorem insertFromEnd_descends
    (agrees : ∀ left right, less left right = .ok (decide (key left < key right)))
    (value : β) {values : List β}
    (descends : values.Pairwise fun later earlier => key earlier ≤ key later) :
    ∃ inserted, insertFromEnd less value values = .ok inserted ∧
      inserted.Pairwise fun later earlier => key earlier ≤ key later := by
  induction values with
  | nil => exact ⟨[value], rfl, List.pairwise_singleton _ _⟩
  | cons last rest induction =>
      obtain ⟨top, restDescends⟩ := List.pairwise_cons.mp descends
      by_cases smaller : key value < key last
      · obtain ⟨inserted, result, insertedDescends⟩ := induction restDescends
        obtain ⟨same, sameResult, permutation⟩ := insertFromEnd_eq_ok agrees value rest
        obtain rfl : inserted = same := Except.ok.inj (result.symm.trans sameResult)
        refine ⟨last :: inserted, by simp [insertFromEnd, agrees, smaller, result], ?_⟩
        refine List.pairwise_cons.mpr ⟨fun other member => ?_, insertedDescends⟩
        rcases List.mem_cons.mp (permutation.mem_iff.mp member) with rfl | old
        · exact smaller.le
        · exact top other old
      · refine ⟨value :: last :: rest, by simp [insertFromEnd, agrees, smaller], ?_⟩
        refine List.pairwise_cons.mpr ⟨fun other member => ?_, descends⟩
        rcases List.mem_cons.mp member with rfl | old
        · exact not_lt.mp smaller
        · exact (top other old).trans (not_lt.mp smaller)

/-- Sorting by a key rearranges the values so that their keys ascend. -/
theorem sortBy_ascends
    (agrees : ∀ left right, less left right = .ok (decide (key left < key right)))
    (values : List β) :
    ∃ sorted, sortBy less values = .ok sorted ∧ sorted.Perm values ∧
      sorted.Pairwise fun left right => key left ≤ key right := by
  obtain ⟨sorted, result, permutation⟩ := sortBy_eq_ok agrees values
  have run : ∃ descending, values.foldlM
      (fun done value => insertFromEnd less value done) [] = .ok descending ∧
        descending.Pairwise fun later earlier => key earlier ≤ key later :=
    foldlM_invariant
      (fun _ (done : List β) => done.Pairwise fun later earlier => key earlier ≤ key later)
      List.Pairwise.nil fun _ value _ descends _ =>
        insertFromEnd_descends agrees value descends
  obtain ⟨descending, descendingResult, descends⟩ := run
  refine ⟨sorted, result, permutation, ?_⟩
  obtain rfl : descending.reverse = sorted := by
    simpa [sortBy, descendingResult] using result
  exact List.pairwise_reverse.mpr descends

end Keys

end Lists

end Scalar

end OptimalPlans
