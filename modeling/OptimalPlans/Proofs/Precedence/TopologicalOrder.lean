import OptimalPlans.Dispatch.Document
import OptimalPlans.Proofs.Exactness
import OptimalPlans.Proofs.Precedence.NetworkViews
import OptimalPlans.Proofs.Precedence.SearchInvariant

/-!
# Cycles and topological orders of networks

The analysis of a network never fails.  It finds a cycle exactly when a name precedes
itself through some chain of predecessors; otherwise its order lists every name once, each
behind its predecessors, and every name gets a layer and a place in the drawing.
-/

namespace OptimalPlans.Precedence

/-! ## Layers and places -/

section Layers

variable {layers : NameMap Nat} {order : List String}

theorem layerOf_eq_ok {name : String} (placed : name ∈ layers.names) :
    ∃ layer, layerOf layers name = .ok layer := by
  obtain ⟨layer, found⟩ := NameMap.mem_names_iff.mp placed
  exact ⟨layer, by simp [layerOf, found]⟩

/-- Names whose predecessors stand before them all get a layer. -/
theorem layersAlong_eq_ok {before : Graph}
    (ready : ∀ seen name, seen ++ [name] <+: order → before.targets name ⊆ seen) :
    ∃ layers, layersAlong order before = .ok layers ∧ order ⊆ layers.names := by
  unfold layersAlong
  apply foldlM_prefix_invariant fun seen (layers : NameMap Nat) => seen ⊆ layers.names
  · exact List.nil_subset _
  · intro seen name layers opens placed
    have above : ∀ other ∈ before.targets name,
        ∃ layer, layerOf layers other = .ok layer := fun other member =>
      layerOf_eq_ok (placed (ready seen name opens member))
    obtain ⟨depths, read⟩ := mapM_total above
    refine ⟨NameMap.put layers name (below depths), by simp [read], ?_⟩
    intro other member
    apply NameMap.mem_names_put.mpr
    rcases List.mem_append.mp member with old | new
    · exact .inr (placed old)
    · exact .inl (List.mem_singleton.mp new)

/-- Names that have a layer all get a place. -/
theorem grid_eq_ok (placed : order ⊆ layers.names) (spacing : Spacing Int) :
    ∃ nodes, grid order layers spacing = .ok nodes := by
  have each : ∀ name ∈ order, ∃ entry : String × Nat,
      (do return (name, ← layerOf layers name)) = (.ok entry : Except Fault _) := by
    intro name member
    obtain ⟨layer, found⟩ := layerOf_eq_ok (placed member)
    exact ⟨(name, layer), by simp [found]⟩
  obtain ⟨entries, read⟩ := mapM_total each
  unfold grid
  rw [read, ok_bind]
  have line : ∀ (depth : Nat) (names : List (String × Nat)), ∃ nodes,
      names.mapM (fun entry => placeNode spacing depth entry.2 entry.1) = .ok nodes :=
    fun depth names => mapM_total fun entry _ => ⟨_, rfl⟩
  obtain ⟨rows, drawn⟩ := mapM_total
    fun depth (_ : depth ∈ (entries.map (·.2)).eraseDups.mergeSort) =>
      line depth ((entries.filter fun entry => entry.2 == depth).map (·.1)).zipIdx
  exact ⟨rows.flatten, by simp [drawn]⟩

end Layers

/-! ## The analysis -/

theorem result_analyse (activities : List Activity) :
    (analyse activities).result =
      if (depthFirstOrder (successors activities)).1 = true then
        .ok { graph := successors activities, schedule := none }
      else do
        let order := (depthFirstOrder (successors activities)).2
        let layers ← layersAlong order (predecessors activities)
        let nodes ← grid order layers defaultSpacing
        return {
          graph := successors activities
          schedule := some { order, layers, nodes } } := by
  unfold analyse
  split <;> simp_all

section Analysis

variable {activities : List Activity}

theorem leads_successors_iff {before after : String} :
    (successors activities).Leads before after ↔ Precedes activities before after :=
  mem_targets_successors

theorem closed_successors (activities : List Activity) : (successors activities).Closed :=
  fun _ _ leads => mem_names_successors.mpr (leads_successors_iff.mp leads).named.2

theorem leads_successors (activities : List Activity) :
    (successors activities).Leads = Precedes activities := by
  funext before after
  exact propext leads_successors_iff

/-- In a list without repetition the names before a place have the smaller indices. -/
theorem mem_of_idxOf_lt {seen order : List String} {name other : String}
    (opens : seen ++ [name] <+: order) (nodup : order.Nodup)
    (before : order.idxOf other < order.idxOf name) : other ∈ seen := by
  obtain ⟨later, rfl⟩ := opens
  rw [List.append_assoc, List.singleton_append] at nodup before
  by_contra absent
  have fresh : name ∉ seen := by
    intro member
    exact (List.nodup_append.mp nodup).2.2 name member name List.mem_cons_self rfl
  rw [List.idxOf_append_of_notMem absent, List.idxOf_append_of_notMem fresh,
    List.idxOf_cons_self] at before
  omega

/-- The analysis of a network succeeds.  It finds a cycle exactly when some name precedes
itself through a chain of predecessors, and then answers with the edges alone.  Otherwise
it answers with an order that lists every name once, and every predecessor stands before
the names it precedes. -/
theorem analyse_detects_cycles (activities : List Activity) :
    ∃ analysis, (analyse activities).result = .ok analysis ∧
      (analysis.schedule = none ↔
        ∃ name, Relation.TransGen (Precedes activities) name name) ∧
      (∀ schedule, analysis.schedule = some schedule →
        schedule.order.Nodup ∧
        (∀ name, name ∈ schedule.order ↔ Named activities name) ∧
        ∀ before after, Precedes activities before after →
          schedule.order.idxOf before < schedule.order.idxOf after) ∧
      (∀ before after,
        (before, after) ∈ analysis.graph.edges ↔ Precedes activities before after) ∧
      (analysis.schedule = none → ∀ field ∈
        [("isCyclic", .truth true), ("topologicalOrder", .null), ("layers", .record []),
          ("visualNodes", .list []),
          ("visualEdges", .list (analysis.graph.edges.map Dispatch.Document.edge))],
        field ∈ Dispatch.Document.network analysis) ∧
      (∀ schedule, analysis.schedule = some schedule → ∀ field ∈
        [("isCyclic", .truth false),
          ("topologicalOrder", Dispatch.Document.names schedule.order)],
        field ∈ Dispatch.Document.network analysis) := by
  obtain ⟨nodup, listed, cyclic, sorted⟩ :=
    depthFirstOrder_sound (closed_successors activities)
  rw [leads_successors] at cyclic
  have edges := fun before after => @mem_edges_successors activities before after
  rw [result_analyse]
  by_cases found : (depthFirstOrder (successors activities)).1 = true
  · rw [if_pos found]
    refine ⟨_, rfl, ⟨fun _ => cyclic.mp found, fun _ => rfl⟩, by simp, edges, ?_, by simp⟩
    simp [Dispatch.Document.network, Dispatch.Document.optional]
  · rw [if_neg found]
    have ordered : ∀ before after, Precedes activities before after →
        (depthFirstOrder (successors activities)).2.idxOf before <
          (depthFirstOrder (successors activities)).2.idxOf after := by
      intro before after precedes
      have known := (listed before).mpr (mem_names_successors.mpr precedes.named.1)
      have order := sorted (Bool.eq_false_iff.mpr found)
      exact (order.idxOf_lt nodup known (leads_successors_iff.mpr precedes)).2
    have ready : ∀ seen name,
        seen ++ [name] <+: (depthFirstOrder (successors activities)).2 →
        (predecessors activities).targets name ⊆ seen := by
      intro seen name opens before member
      apply mem_of_idxOf_lt opens nodup
      exact ordered before name (mem_targets_predecessors.mp member)
    obtain ⟨layers, layered, placed⟩ := layersAlong_eq_ok ready
    obtain ⟨nodes, drawn⟩ := grid_eq_ok placed defaultSpacing
    let schedule : Schedule := ⟨(depthFirstOrder (successors activities)).2, layers, nodes⟩
    refine ⟨⟨successors activities, some schedule⟩, by simp [layered, drawn, schedule], ?_,
      ?_, edges, by simp, ?_⟩
    · constructor
      · intro impossible
        cases impossible
      · intro cycle
        exact absurd (cyclic.mpr cycle) found
    · intro found same
      obtain rfl := Option.some.inj same
      exact ⟨nodup, fun name => (listed name).trans mem_names_successors, ordered⟩
    · intro found same
      obtain rfl := Option.some.inj same
      simp [Dispatch.Document.network, Dispatch.Document.optional, schedule]

end Analysis

end OptimalPlans.Precedence
