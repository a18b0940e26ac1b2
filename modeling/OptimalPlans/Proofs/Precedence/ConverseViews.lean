import OptimalPlans.Proofs.Precedence.LayerDepth

/-!
# Two views without repetition

The successors and the predecessors are collected separately from the same declarations.
Each of the two maps lists a pair of names once, however often it is declared, and a pair
is in the one exactly when it is in the other.
-/

namespace OptimalPlans.Precedence

/-! ## No repeated targets -/

namespace Graph

variable {graph : Graph} {name source target : String}

/-- Every name leads to another at most once. -/
def Simple (graph : Graph) : Prop :=
  ∀ entry ∈ graph, entry.2.Nodup

theorem simple_nil : Graph.Simple [] := by simp [Simple]

theorem Simple.put {held : List String} (simple : graph.Simple) (nodup : held.Nodup) :
    Graph.Simple (NameMap.put graph name held) := by
  intro entry member
  rcases NameMap.mem_put member with rfl | old
  · exact nodup
  · exact simple entry old

theorem Simple.nodup_targets (simple : graph.Simple) : (graph.targets name).Nodup := by
  rw [targets]
  cases found : NameMap.get? graph name with
  | none => exact List.nodup_nil
  | some held => exact simple _ (NameMap.mem_of_get? found)

theorem Simple.ensure (simple : graph.Simple) : (graph.ensure name).Simple := by
  unfold Graph.ensure
  split
  next => exact simple
  next => exact simple.put List.nodup_nil

theorem Simple.link (simple : graph.Simple) : (graph.link source target).Simple := by
  unfold Graph.link
  dsimp only
  split
  next => exact simple
  next fresh =>
      have absent : target ∉ graph.targets source := by simpa using fresh
      apply simple.put
      rw [← List.concat_eq_append]
      exact simple.nodup_targets.concat absent

theorem Simple.foldl {α : Type} {step : Graph → α → Graph} (simple : graph.Simple)
    (keeps : ∀ graph item, graph.Simple → (step graph item).Simple) (items : List α) :
    (items.foldl step graph).Simple :=
  foldl_invariant (fun _ (graph : Graph) => graph.Simple) simple
    fun _ item graph _ simple => keeps graph item simple

/-- Where every name is held once and leads to another at most once, no edge is repeated. -/
theorem Simple.nodup_edges (simple : graph.Simple) (nodup : graph.names.Nodup) :
    graph.edges.Nodup := by
  rw [edges, List.nodup_flatMap]
  constructor
  · intro entry member
    exact (simple entry member).map (Prod.mk_right_injective entry.1)
  · have apart : graph.Pairwise fun entry other => entry.1 ≠ other.1 :=
      List.pairwise_map.mp nodup
    apply apart.imp
    intro entry other different edge member otherMember
    obtain ⟨_, _, rfl⟩ := List.mem_map.mp member
    obtain ⟨_, _, same⟩ := List.mem_map.mp otherMember
    exact different (congrArg Prod.fst same).symm

end Graph

/-- Successors are entered one by one, each unless it is there. -/
theorem simple_successors (activities : List Activity) : (successors activities).Simple := by
  rw [successors_eq_foldl]
  apply Graph.simple_nil.foldl
  intro graph activity simple
  exact simple.ensure.foldl (fun _ _ simple => simple.ensure.link) activity.predecessors

/-- So are predecessors. -/
theorem simple_predecessors (activities : List Activity) :
    (predecessors activities).Simple := by
  apply Graph.simple_nil.foldl
  intro graph activity simple
  exact simple.ensure.foldl (fun _ _ simple => simple.link) activity.predecessors

/-- The successors and the predecessors of a network are converse views of the declared
pairs, neither of which lists a name twice.  The successor map holds the declared and
mentioned names in the order of their first mention, an activity before its own
predecessors, and leads to such names only.  The analysis lists every pair once. -/
theorem views_are_converse (activities : List Activity) :
    (∀ before after, after ∈ (successors activities).targets before ↔
      before ∈ (predecessors activities).targets after) ∧
    (∀ before after, before ∈ (predecessors activities).targets after ↔
      Precedes activities before after) ∧
    (∀ entry ∈ successors activities, entry.2.Nodup) ∧
    (∀ entry ∈ predecessors activities, entry.2.Nodup) ∧
    (successors activities).names =
      (activities.flatMap fun activity =>
        activity.name :: activity.predecessors).eraseDups ∧
    (∀ before, ∀ after ∈ (successors activities).targets before,
      after ∈ (successors activities).names) ∧
    ∃ analysis, (analyse activities).result = .ok analysis ∧
      analysis.graph.edges.Nodup ∧
      ∀ before after, (before, after) ∈ analysis.graph.edges ↔
        after ∈ (successors activities).targets before := by
  have simple := simple_successors activities
  have nodup := nodup_names_successors activities
  obtain ⟨analysis, result, graph, _⟩ := analyse_measures activities
  refine ⟨?_, fun _ _ => mem_targets_predecessors,
    simple, simple_predecessors activities, names_successors activities,
    closed_successors activities, analysis, result, ?_, ?_⟩
  · intro before after
    rw [mem_targets_successors, mem_targets_predecessors]
  · rw [graph]
    exact simple.nodup_edges nodup
  · intro before after
    rw [graph, Graph.mem_edges_iff nodup]

end OptimalPlans.Precedence
