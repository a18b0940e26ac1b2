import OptimalPlans.Proofs.Exactness

/-!
# Embeddings of scalars

An embedding sends scalars to scalars so that every operation has the same outcome on
both sides.  The integers embed into the numbers, and a traversal of a list that is
embedded step by step is embedded as a whole.
-/

namespace OptimalPlans

section Outcomes

variable {ε α β γ δ : Type}

@[simp] theorem map_ok (f : α → β) (value : α) :
    (Except.ok value : Except ε α).map f = .ok (f value) := rfl

/-- Steps that agree up to embedding agree in sequence. -/
theorem bind_agrees {f : α → γ} {g : β → δ} {first : Except ε α} {first' : Except ε γ}
    {next : α → Except ε β} {next' : γ → Except ε δ} (begins : first' = first.map f)
    (continues : ∀ value, next' (f value) = (next value).map g) :
    first' >>= next' = (first >>= next).map g := by
  subst begins
  cases first with
  | error fault => rfl
  | ok value => exact continues value

/-- A first step that is not affected keeps the agreement of the second one. -/
theorem bind_unchanged {g : β → δ} {first first' : Except ε α} {next : α → Except ε β}
    {next' : α → Except ε δ} (begins : first' = first)
    (continues : ∀ value, next' value = (next value).map g) :
    first' >>= next' = (first >>= next).map g := by
  subst begins
  cases first' with
  | error fault => rfl
  | ok value => exact continues value

theorem mapM_map {f : α → β} {g : γ → δ} {compute : α → Except ε γ}
    {compute' : β → Except ε δ} {items : List α}
    (agrees : ∀ item ∈ items, compute' (f item) = (compute item).map g) :
    (items.map f).mapM compute' = (items.mapM compute).map (List.map g) := by
  induction items with
  | nil => rfl
  | cons item items induction =>
      have later := induction fun other member => agrees other (by simp [member])
      rw [List.map_cons, List.mapM_cons, List.mapM_cons]
      refine bind_agrees (agrees item (by simp)) fun value => ?_
      exact bind_agrees later fun values => rfl

theorem mapM_agrees {g : γ → δ} {compute : α → Except ε γ} {compute' : α → Except ε δ}
    {items : List α} (agrees : ∀ item ∈ items, compute' item = (compute item).map g) :
    items.mapM compute' = (items.mapM compute).map (List.map g) := by
  have mapped := mapM_map (f := id) agrees
  rwa [List.map_id] at mapped

theorem foldlM_map {f : α → β} {g : γ → δ} {step : γ → α → Except ε γ}
    {step' : δ → β → Except ε δ}
    (agrees : ∀ state item, step' (g state) (f item) = (step state item).map g)
    (items : List α) {start : γ} {start' : δ} (begins : start' = g start) :
    (items.map f).foldlM step' start' = (items.foldlM step start).map g := by
  subst begins
  induction items generalizing start with
  | nil => rfl
  | cons item items induction =>
      rw [List.map_cons, List.foldlM_cons, List.foldlM_cons]
      exact bind_agrees (agrees start item) fun next => induction

theorem foldlM_agrees {g : γ → δ} {step : γ → α → Except ε γ} {step' : δ → α → Except ε δ}
    (agrees : ∀ state item, step' (g state) item = (step state item).map g)
    (items : List α) {start : γ} {start' : δ} (begins : start' = g start) :
    items.foldlM step' start' = (items.foldlM step start).map g := by
  have mapped := foldlM_map (f := id) agrees items begins
  rwa [List.map_id] at mapped

end Outcomes

namespace Scalar

/-- A map between scalars that every operation respects. -/
structure Embedding {α β : Type} [Scalar α] [Scalar β] (embed : α → β) : Prop where
  ofInt : ∀ n, embed (ofInt n) = ofInt n
  add : ∀ a b, add (embed a) (embed b) = (add a b).map embed
  sub : ∀ a b, sub (embed a) (embed b) = (sub a b).map embed
  mul : ∀ a b, mul (embed a) (embed b) = (mul a b).map embed
  same : ∀ a b, same (embed a) (embed b) = same a b
  less : ∀ a b, less (embed a) (embed b) = less a b
  greater : ∀ a b, greater (embed a) (embed b) = greater a b
  greaterEq : ∀ a b, greaterEq (embed a) (embed b) = greaterEq a b
  bounded : ∀ a, bounded (embed a) = bounded a

/-- Every integer is a number, and numbers compute with integers as integers do. -/
theorem integer_embedding : Embedding Number.integer where
  ofInt _ := rfl
  add _ _ := rfl
  sub _ _ := rfl
  mul _ _ := rfl
  same _ _ := rfl
  less _ _ := rfl
  greater _ _ := rfl
  greaterEq _ _ := rfl
  bounded _ := rfl

namespace Embedding

variable {α β : Type} [Scalar α] [Scalar β] {embed : α → β}

theorem isZero (embedding : Embedding embed) (a : α) : isZero (embed a) = isZero a := by
  rw [Scalar.isZero, Scalar.isZero, ← embedding.ofInt, embedding.same]

theorem isPositive (embedding : Embedding embed) (a : α) :
    isPositive (embed a) = isPositive a := by
  rw [Scalar.isPositive, Scalar.isPositive, ← embedding.ofInt, embedding.greater]

theorem smaller (embedding : Embedding embed) (a b : α) :
    smaller (embed a) (embed b) = (smaller a b).map embed := by
  unfold Scalar.smaller
  refine bind_unchanged (embedding.less b a) fun below => ?_
  cases below <;> rfl

theorem precedes (embedding : Embedding embed) (a b : α) :
    precedes (embed a) (embed b) = precedes a b := by
  rw [Scalar.precedes, Scalar.precedes, embedding.same, embedding.less]

end Embedding

theorem filterBy_map {α β : Type} {f : α → β} {test : α → Except Fault Bool}
    {test' : β → Except Fault Bool} {values : List α}
    (agrees : ∀ value ∈ values, test' (f value) = test value) :
    filterBy test' (values.map f) = (filterBy test values).map (List.map f) := by
  induction values with
  | nil => rfl
  | cons value values induction =>
      have later := induction fun other member => agrees other (by simp [member])
      rw [List.map_cons, filterBy, filterBy]
      refine bind_unchanged (agrees value (by simp)) fun passes => ?_
      cases passes with
      | false => exact later
      | true => exact bind_agrees later fun kept => rfl

section Sorting

variable {α β : Type} {f : α → β} {less : α → α → Except Fault Bool}
  {less' : β → β → Except Fault Bool}

theorem insertFromEnd_map (agrees : ∀ left right, less' (f left) (f right) = less left right)
    (value : α) (values : List α) :
    insertFromEnd less' (f value) (values.map f) =
      (insertFromEnd less value values).map (List.map f) := by
  induction values with
  | nil => rfl
  | cons last rest induction =>
      rw [List.map_cons, insertFromEnd, insertFromEnd]
      apply bind_unchanged (agrees value last)
      intro below
      cases below with
      | false => rfl
      | true => exact bind_agrees induction fun inserted => rfl

/-- Values are sorted alike where they compare alike. -/
theorem sortBy_map (agrees : ∀ left right, less' (f left) (f right) = less left right)
    (values : List α) :
    sortBy less' (values.map f) = (sortBy less values).map (List.map f) := by
  have inserted : (values.map f).foldlM (fun done value => insertFromEnd less' value done) [] =
      (values.foldlM (fun done value => insertFromEnd less value done) []).map (List.map f) :=
    foldlM_map (fun done value => insertFromEnd_map agrees value done) values rfl
  unfold sortBy
  apply bind_agrees inserted
  intro descending
  exact congrArg Except.ok List.map_reverse.symm

end Sorting

end Scalar

end OptimalPlans
