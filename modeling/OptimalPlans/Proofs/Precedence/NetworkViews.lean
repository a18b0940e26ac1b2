import Mathlib
import OptimalPlans.Precedence.Network

/-!
# Two views of one relation

The declarations of a network say which name has to precede which.  The successors and
the predecessors of a name are the two views of this relation, and the edges of the
successor graph list it.  The successor graph holds the names in the order in which the
declarations mention them first.
-/

namespace OptimalPlans.Precedence

/-- A name is a predecessor of another in some declaration of the latter. -/
def Precedes (activities : List Activity) (before after : String) : Prop :=
  ∃ activity ∈ activities, activity.name = after ∧ before ∈ activity.predecessors

/-- A name is declared or mentioned as a predecessor. -/
def Named (activities : List Activity) (name : String) : Prop :=
  ∃ activity ∈ activities, name = activity.name ∨ name ∈ activity.predecessors

theorem Precedes.named {activities : List Activity} {before after : String}
    (precedes : Precedes activities before after) :
    Named activities before ∧ Named activities after := by
  obtain ⟨activity, declared, same, mentioned⟩ := precedes
  exact ⟨⟨activity, declared, .inr mentioned⟩, ⟨activity, declared, .inl same.symm⟩⟩

theorem precedes_cons_iff {activity : Activity} {activities : List Activity}
    {before after : String} :
    Precedes (activity :: activities) before after ↔
      (activity.name = after ∧ before ∈ activity.predecessors) ∨
        Precedes activities before after := by
  simp [Precedes]

theorem named_cons_iff {activity : Activity} {activities : List Activity} {name : String} :
    Named (activity :: activities) name ↔
      (name = activity.name ∨ name ∈ activity.predecessors) ∨ Named activities name := by
  simp [Named]

/-! ## First mentions -/

section FirstMentions

variable {α : Type} [BEq α] [LawfulBEq α]

theorem nodup_eraseDups (items : List α) : items.eraseDups.Nodup := by
  match items with
  | [] => exact List.nodup_nil
  | item :: rest =>
      rw [List.eraseDups_cons]
      have absent : item ∉ (rest.filter fun other => !other == item).eraseDups := by
        simp [List.mem_eraseDups]
      exact List.nodup_cons.mpr ⟨absent, nodup_eraseDups _⟩
termination_by items.length
decreasing_by exact Nat.lt_succ_of_le (List.length_filter_le _ _)

theorem eraseDups_concat_of_mem {items : List α} {item : α} (mentioned : item ∈ items) :
    (items ++ [item]).eraseDups = items.eraseDups := by
  simp [List.eraseDups_append, List.removeAll, mentioned]

theorem eraseDups_concat_of_notMem {items : List α} {item : α} (fresh : item ∉ items) :
    (items ++ [item]).eraseDups = items.eraseDups ++ [item] := by
  simp [List.eraseDups_append, List.removeAll, fresh, List.eraseDups_cons]

end FirstMentions

/-! ## Maps from names -/

namespace NameMap

variable {β : Type} {entries : NameMap β} {name other : String} {value : β}

theorem get?_cons (held : β) :
    get? ((name, held) :: entries) other =
      if name = other then some held else get? entries other := by
  unfold get?
  rw [List.lookup_cons]
  by_cases same : name = other
  · simp [same]
  · have different : (other == name) = false := by simpa using Ne.symm same
    simp [same, different]

theorem get?_put :
    get? (put entries name value) other =
      if name = other then some value else get? entries other := by
  induction entries with
  | nil => rw [put, get?_cons]
  | cons entry rest induction =>
      obtain ⟨first, held⟩ := entry
      by_cases same : first = name
      · subst same
        by_cases found : first = other <;> simp [put, get?_cons, found]
      · simp only [put, if_neg same, get?_cons, induction]
        by_cases found : first = other
        · have different : name ≠ other := fun equality => same (found.trans equality.symm)
          simp [found, different]
        · simp [found]

theorem names_put :
    names (put entries name value) =
      if name ∈ names entries then names entries else names entries ++ [name] := by
  induction entries with
  | nil => simp [put, names]
  | cons entry rest induction =>
      obtain ⟨first, held⟩ := entry
      by_cases same : first = name
      · simp [put, names, same]
      · have step : names (put ((first, held) :: rest) name value) =
            first :: names (put rest name value) := by
          simp [put, same, names]
        have heads : names ((first, held) :: rest) = first :: names rest := rfl
        rw [step, induction, heads]
        by_cases member : name ∈ names rest
        · simp [member]
        · simp [member, Ne.symm same]

theorem mem_names_put : other ∈ names (put entries name value) ↔
    other = name ∨ other ∈ names entries := by
  rw [names_put]
  split
  next held => exact ⟨.inr, fun either => either.elim (fun same => same ▸ held) id⟩
  next => simp [or_comm]

theorem nodup_put (nodup : (names entries).Nodup) :
    (names (put entries name value)).Nodup := by
  rw [names_put]
  split
  next => exact nodup
  next absent => simpa using nodup.concat absent

theorem get?_eq_none_iff : get? entries name = none ↔ name ∉ names entries := by
  induction entries with
  | nil => simp [get?, names]
  | cons entry rest induction =>
      obtain ⟨first, held⟩ := entry
      by_cases same : first = name
      · simp [get?_cons, names, same]
      · simpa [get?_cons, names, same, Ne.symm same] using induction

theorem mem_names_iff : name ∈ names entries ↔ ∃ value, get? entries name = some value := by
  rw [← Option.isSome_iff_exists, ← Option.ne_none_iff_isSome, ne_eq, get?_eq_none_iff,
    not_not]

theorem mem_put {entry : String × β} (member : entry ∈ put entries name value) :
    entry = (name, value) ∨ entry ∈ entries := by
  induction entries with
  | nil => exact .inl (List.mem_singleton.mp member)
  | cons first rest induction =>
      rw [put] at member
      split at member
      next =>
          exact (List.mem_cons.mp member).imp_right (List.mem_cons_of_mem _)
      next =>
          rcases List.mem_cons.mp member with rfl | later
          · exact .inr List.mem_cons_self
          · exact (induction later).imp_right (List.mem_cons_of_mem _)

theorem mem_of_get? (found : get? entries name = some value) : (name, value) ∈ entries := by
  induction entries with
  | nil => cases found
  | cons first rest induction =>
      rw [get?_cons] at found
      split at found
      next same =>
          obtain rfl := Option.some.inj found
          exact List.mem_cons.mpr (.inl (congrArg (·, first.2) same.symm))
      next => exact List.mem_cons_of_mem _ (induction found)

/-- A map that holds every name once holds what is looked up, and nothing else. -/
theorem mem_iff_get? (nodup : (names entries).Nodup) :
    (name, value) ∈ entries ↔ get? entries name = some value := by
  induction entries with
  | nil => simp [get?]
  | cons entry rest induction =>
      obtain ⟨first, held⟩ := entry
      obtain ⟨absent, restNodup⟩ := List.nodup_cons.mp nodup
      rw [List.mem_cons, get?_cons, induction restNodup]
      by_cases same : first = name
      · subst same
        have none : get? rest first = none := get?_eq_none_iff.mpr absent
        simp [none, eq_comm]
      · simp [same, Ne.symm same]

end NameMap

/-! ## Graphs -/

namespace Graph

variable {graph : Graph} {name source target other : String}

@[simp] theorem targets_ensure : (graph.ensure name).targets other = graph.targets other := by
  unfold ensure
  split
  next => rfl
  next missing =>
      rw [targets, NameMap.get?_put]
      by_cases same : name = other
      · subst same
        simp [targets, missing]
      · simp [targets, same]

theorem targets_link :
    (graph.link source target).targets other =
      if source = other ∧ target ∉ graph.targets source then graph.targets source ++ [target]
      else graph.targets other := by
  unfold link
  by_cases held : target ∈ graph.targets source
  · simp [held]
  · have entered :
        targets (NameMap.put graph source (graph.targets source ++ [target])) other =
          if source = other then graph.targets source ++ [target]
          else graph.targets other := by
      rw [targets, NameMap.get?_put]
      by_cases same : source = other <;> simp [same, targets]
    simpa [held] using entered

theorem mem_targets_link {found : String} :
    found ∈ (graph.link source target).targets other ↔
      (source = other ∧ found = target) ∨ found ∈ graph.targets other := by
  rw [targets_link]
  by_cases same : source = other
  · subst same
    by_cases held : target ∈ graph.targets source
    · simp only [held, not_true_eq_false, and_false, if_false, true_and]
      exact ⟨.inr, fun either => either.elim (fun equal => equal ▸ held) id⟩
    · simp [held, or_comm]
  · simp [same]

/-- Where every name is held once, the edges are the pairs of a name and a target. -/
theorem mem_edges_iff (nodup : graph.names.Nodup) :
    (source, target) ∈ graph.edges ↔ target ∈ graph.targets source := by
  have listed : (source, target) ∈ graph.edges ↔
      ∃ held, (source, held) ∈ graph ∧ target ∈ held := by
    constructor
    · intro member
      obtain ⟨⟨name, held⟩, entry, found⟩ := List.mem_flatMap.mp member
      obtain ⟨other, otherMember, same⟩ := List.mem_map.mp found
      obtain ⟨rfl, rfl⟩ := Prod.mk.inj same
      exact ⟨held, entry, otherMember⟩
    · intro found
      obtain ⟨held, entry, member⟩ := found
      apply List.mem_flatMap.mpr
      exact ⟨(source, held), entry, List.mem_map.mpr ⟨target, member, rfl⟩⟩
  rw [listed]
  cases found : NameMap.get? graph source with
  | none => simp [NameMap.mem_iff_get? nodup, found, targets]
  | some held => simp [NameMap.mem_iff_get? nodup, found, targets]

end Graph

/-! ## Successors -/

section Successors

variable {activities : List Activity} {mentions : List String} {graph : Graph}
  {before after name : String}

/-- Enters a name as a successor of a predecessor. -/
def follow (after : String) (graph : Graph) (before : String) : Graph :=
  (graph.ensure before).link before after

/-- Enters the name of an activity and links it to its predecessors. -/
def declareAfter (graph : Graph) (activity : Activity) : Graph :=
  activity.predecessors.foldl (follow activity.name) (graph.ensure activity.name)

theorem successors_eq_foldl : successors activities = activities.foldl declareAfter [] := rfl

theorem mem_targets_foldl_follow {predecessors : List String} {graph : Graph}
    {source target : String} :
    target ∈ (predecessors.foldl (follow after) graph).targets source ↔
      (target = after ∧ source ∈ predecessors) ∨ target ∈ graph.targets source := by
  induction predecessors generalizing graph with
  | nil => simp
  | cons first rest induction =>
      rw [List.foldl_cons, induction, follow, Graph.mem_targets_link, Graph.targets_ensure,
        List.mem_cons]
      constructor
      · intro found
        rcases found with later | ⟨rfl, same⟩ | old
        · exact .inl ⟨later.1, .inr later.2⟩
        · exact .inl ⟨same, .inl rfl⟩
        · exact .inr old
      · intro found
        rcases found with ⟨same, rfl | later⟩ | old
        · exact .inr (.inl ⟨rfl, same⟩)
        · exact .inl ⟨same, later⟩
        · exact .inr (.inr old)

theorem mem_targets_foldl_declareAfter {graph : Graph} {source target : String} :
    target ∈ (activities.foldl declareAfter graph).targets source ↔
      Precedes activities source target ∨ target ∈ graph.targets source := by
  induction activities generalizing graph with
  | nil => simp [Precedes]
  | cons activity rest induction =>
      rw [List.foldl_cons, induction, declareAfter, mem_targets_foldl_follow,
        Graph.targets_ensure, precedes_cons_iff, eq_comm (a := target)]
      tauto

/-- The successors of a name are the names it precedes. -/
theorem mem_targets_successors :
    after ∈ (successors activities).targets before ↔ Precedes activities before after := by
  rw [successors_eq_foldl, mem_targets_foldl_declareAfter]
  simp [Graph.targets, NameMap.get?]

theorem names_ensure (names : graph.names = mentions.eraseDups) :
    (graph.ensure name).names = (mentions ++ [name]).eraseDups := by
  have mentioned_iff : name ∈ graph.names ↔ name ∈ mentions := by
    rw [names, List.mem_eraseDups]
  unfold Graph.ensure
  split
  next held found =>
      have mentioned := mentioned_iff.mp (NameMap.mem_names_iff.mpr ⟨held, found⟩)
      rw [eraseDups_concat_of_mem mentioned, names]
  next missing =>
      have absent := NameMap.get?_eq_none_iff.mp missing
      rw [eraseDups_concat_of_notMem (mt mentioned_iff.mpr absent), NameMap.names_put,
        if_neg absent, names]

theorem names_link {source target : String} (known : source ∈ graph.names) :
    (graph.link source target).names = graph.names := by
  unfold Graph.link
  dsimp only
  split
  next => rfl
  next => rw [NameMap.names_put, if_pos known]

theorem names_foldl_follow {predecessors : List String}
    (names : graph.names = mentions.eraseDups) :
    (predecessors.foldl (follow after) graph).names =
      (mentions ++ predecessors).eraseDups := by
  induction predecessors generalizing graph mentions with
  | nil => simpa using names
  | cons before rest induction =>
      have entered : (graph.ensure before).names = (mentions ++ [before]).eraseDups :=
        names_ensure names
      have known : before ∈ (graph.ensure before).names := by
        rw [entered, List.mem_eraseDups]
        exact List.mem_concat_self
      have followed :
          (follow after graph before).names = (mentions ++ [before]).eraseDups := by
        rw [follow, names_link known, entered]
      rw [List.foldl_cons, induction followed, List.append_assoc, List.singleton_append]

theorem names_foldl_declareAfter (names : graph.names = mentions.eraseDups) :
    (activities.foldl declareAfter graph).names =
      (mentions ++ activities.flatMap fun activity =>
        activity.name :: activity.predecessors).eraseDups := by
  induction activities generalizing graph mentions with
  | nil => simpa using names
  | cons activity rest induction =>
      have entered : (declareAfter graph activity).names =
          (mentions ++ activity.name :: activity.predecessors).eraseDups := by
        rw [declareAfter, names_foldl_follow (names_ensure names), List.append_assoc,
          List.singleton_append]
      rw [List.foldl_cons, induction entered, List.append_assoc, List.flatMap_cons]

/-- The successor map holds the names that the declarations mention, in the order of their
first mention. -/
theorem names_successors (activities : List Activity) :
    (successors activities).names =
      (activities.flatMap fun activity =>
        activity.name :: activity.predecessors).eraseDups := by
  have begins : NameMap.names ([] : Graph) = ([] : List String).eraseDups := rfl
  exact names_foldl_declareAfter begins

theorem mem_names_successors :
    name ∈ (successors activities).names ↔ Named activities name := by
  rw [names_successors, List.mem_eraseDups, List.mem_flatMap]
  simp only [List.mem_cons, Named]

theorem nodup_names_successors (activities : List Activity) :
    (successors activities).names.Nodup := by
  rw [names_successors]
  exact nodup_eraseDups _

theorem mem_edges_successors :
    (before, after) ∈ (successors activities).edges ↔ Precedes activities before after := by
  rw [Graph.mem_edges_iff (nodup_names_successors activities), mem_targets_successors]

end Successors

/-! ## Predecessors -/

section Predecessors

variable {activities : List Activity} {before after : String}

/-- Enters the name of an activity with its predecessors. -/
def declareBefore (graph : Graph) (activity : Activity) : Graph :=
  activity.predecessors.foldl (fun graph before => graph.link activity.name before)
    (graph.ensure activity.name)

theorem mem_targets_foldl_link {predecessors : List String} {graph : Graph}
    {source target : String} :
    target ∈ (predecessors.foldl (fun graph before => graph.link after before)
        graph).targets source ↔
      (source = after ∧ target ∈ predecessors) ∨ target ∈ graph.targets source := by
  induction predecessors generalizing graph with
  | nil => simp
  | cons first rest induction =>
      rw [List.foldl_cons, induction, Graph.mem_targets_link, List.mem_cons,
        eq_comm (a := after)]
      tauto

theorem mem_targets_foldl_declareBefore {graph : Graph} {source target : String} :
    target ∈ (activities.foldl declareBefore graph).targets source ↔
      Precedes activities target source ∨ target ∈ graph.targets source := by
  induction activities generalizing graph with
  | nil => simp [Precedes]
  | cons activity rest induction =>
      rw [List.foldl_cons, induction, declareBefore, mem_targets_foldl_link,
        Graph.targets_ensure, precedes_cons_iff, eq_comm (a := source)]
      tauto

/-- The predecessors of a name are the names that precede it. -/
theorem mem_targets_predecessors :
    before ∈ (predecessors activities).targets after ↔ Precedes activities before after := by
  have folded : predecessors activities = activities.foldl declareBefore [] := rfl
  rw [folded, mem_targets_foldl_declareBefore]
  simp [Graph.targets, NameMap.get?]

end Predecessors

end OptimalPlans.Precedence
