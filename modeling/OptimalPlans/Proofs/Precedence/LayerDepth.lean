import OptimalPlans.Proofs.Precedence.TopologicalOrder

/-!
# Layers and chains of predecessors

The layer of a name is the number of steps of the longest chain of predecessors that ends
in it.  This says what a layer is by the precedence relation alone, so neither the order
in which the names are placed nor the declarations that make up the relation can matter:
every topological order gives every name the same layer.
-/

namespace OptimalPlans.Precedence

/-- No name precedes itself through a chain of predecessors. -/
def Acyclic (activities : List Activity) : Prop :=
  ∀ name, ¬ Relation.TransGen (Precedes activities) name name

/-- An order lists every name of a network once, behind the names that precede it. -/
structure TopologicalOrder (activities : List Activity) (order : List String) : Prop where
  nodup : order.Nodup
  listed : ∀ name, name ∈ order ↔ Named activities name
  sorted : ∀ before after, Precedes activities before after →
    order.idxOf before < order.idxOf after

/-- A chain of so many steps, each from a name to one that it precedes, ends in a name. -/
inductive ChainTo (activities : List Activity) : Nat → String → Prop
  | here (name : String) : ChainTo activities 0 name
  | step {length : Nat} {before after : String} (chain : ChainTo activities length before)
      (precedes : Precedes activities before after) : ChainTo activities (length + 1) after

/-- The longest chain that ends in a name has so many steps. -/
def Depth (activities : List Activity) (name : String) (depth : Nat) : Prop :=
  IsGreatest {length | ChainTo activities length name} depth

/-- A map holds the given names once, each with its depth. -/
structure Measured (activities : List Activity) (names : List String)
    (layers : NameMap Nat) : Prop where
  nodup : layers.names.Nodup
  keys : ∀ name, name ∈ layers.names ↔ name ∈ names
  depth : ∀ name layer, NameMap.get? layers name = some layer → Depth activities name layer

section Depth

variable {activities : List Activity} {before after name : String} {depth : Nat}

theorem Depth.lt {deeper : Nat} (upper : Depth activities before depth)
    (lower : Depth activities after deeper) (precedes : Precedes activities before after) :
    depth < deeper :=
  lower.2 (ChainTo.step upper.1 precedes)

/-- Only names without predecessors are at the top. -/
theorem Depth.eq_zero_iff (greatest : Depth activities name depth) :
    depth = 0 ↔ ∀ before, ¬ Precedes activities before name := by
  constructor
  · rintro rfl before precedes
    have bound := greatest.2 (ChainTo.step (ChainTo.here before) precedes)
    exact Nat.not_succ_le_zero 0 bound
  · intro first
    cases greatest.1 with
    | here => rfl
    | step _ precedes => exact absurd precedes (first _)

end Depth

/-! ## The layer below given layers -/

section Below

variable {activities : List Activity} {name : String} {depths : List Nat} {depth : Nat}

theorem lt_below (member : depth ∈ depths) : depth < below depths := by
  cases depths with
  | nil => simp at member
  | cons first rest =>
      have deepest : (first :: rest).max? = some (rest.foldl max first) := rfl
      have least := (List.max?_eq_some_iff.mp deepest).2 depth member
      simp only [below]
      omega

theorem below_eq (depths : List Nat) :
    below depths = 0 ∨ ∃ depth ∈ depths, below depths = depth + 1 := by
  cases depths with
  | nil => exact .inl rfl
  | cons first rest =>
      have deepest : (first :: rest).max? = some (rest.foldl max first) := rfl
      exact .inr ⟨_, List.max?_mem deepest, Nat.add_comm _ _⟩

/-- Below the depths of its predecessors a name is at its own depth. -/
theorem depth_below
    (listed : ∀ depth ∈ depths, ∃ before,
      Precedes activities before name ∧ Depth activities before depth)
    (whole : ∀ before, Precedes activities before name →
      ∃ depth ∈ depths, Depth activities before depth) :
    Depth activities name (below depths) := by
  constructor
  · rcases below_eq depths with zero | ⟨depth, member, next⟩
    · rw [zero]
      exact ChainTo.here name
    · obtain ⟨before, precedes, greatest⟩ := listed depth member
      rw [next]
      exact ChainTo.step greatest.1 precedes
  · intro length chain
    cases chain with
    | here => exact Nat.zero_le _
    | step shorter precedes =>
        obtain ⟨depth, member, greatest⟩ := whole _ precedes
        have bound := greatest.2 shorter
        have deeper := lt_below member
        omega

end Below

/-! ## Placing names in order -/

section Placing

variable {activities : List Activity} {seen order : List String} {name : String}
  {layers : NameMap Nat}

/-- A name of the map is read with its depth. -/
theorem Measured.layerOf_eq_ok (measured : Measured activities seen layers)
    (member : name ∈ seen) :
    ∃ depth, layerOf layers name = .ok depth ∧ Depth activities name depth := by
  obtain ⟨depth, found⟩ := NameMap.mem_names_iff.mp ((measured.keys name).mpr member)
  exact ⟨depth, by simp [layerOf, found], measured.depth name depth found⟩

theorem Measured.put (measured : Measured activities seen layers) {layer : Nat}
    (depth : Depth activities name layer) :
    Measured activities (seen ++ [name]) (NameMap.put layers name layer) where
  nodup := NameMap.nodup_put measured.nodup
  keys := by
    intro other
    rw [NameMap.mem_names_put, measured.keys other, List.mem_append, List.mem_singleton,
      or_comm]
  depth := by
    intro other held found
    rw [NameMap.get?_put] at found
    split at found
    next same =>
        obtain rfl := Option.some.inj found
        exact same ▸ depth
    next => exact measured.depth other held found

/-- One step of the placement: a name whose predecessors are placed gets its depth. -/
theorem Measured.place (measured : Measured activities seen layers)
    (ready : (predecessors activities).targets name ⊆ seen) :
    ∃ layer, (do
        let above ← ((predecessors activities).targets name).mapM (layerOf layers)
        return NameMap.put layers name (below above)) = .ok (NameMap.put layers name layer) ∧
      Depth activities name layer := by
  have read : ∀ before ∈ (predecessors activities).targets name,
      ∃ depth, layerOf layers before = .ok depth ∧ Depth activities before depth :=
    fun before member => measured.layerOf_eq_ok (ready member)
  choose! depthOf found greatest using read
  refine ⟨below (((predecessors activities).targets name).map depthOf), ?_, ?_⟩
  · rw [mapM_eq_ok found, ok_bind, pure_eq_ok]
  · apply depth_below
    · intro depth member
      obtain ⟨before, target, rfl⟩ := List.mem_map.mp member
      exact ⟨before, mem_targets_predecessors.mp target, greatest before target⟩
    · intro before precedes
      have target := mem_targets_predecessors.mpr precedes
      exact ⟨depthOf before, List.mem_map_of_mem target, greatest before target⟩

/-- Names in an order in which predecessors come first all get their depths. -/
theorem layersAlong_measured
    (ready : ∀ seen name, seen ++ [name] <+: order →
      (predecessors activities).targets name ⊆ seen) :
    ∃ layers, layersAlong order (predecessors activities) = .ok layers ∧
      Measured activities order layers := by
  unfold layersAlong
  apply foldlM_prefix_invariant fun seen layers => Measured activities seen layers
  · exact ⟨List.nodup_nil, fun name => Iff.rfl,
      fun name layer found => by simp [NameMap.get?] at found⟩
  · intro seen name layers opens measured
    obtain ⟨layer, placed, depth⟩ := measured.place (ready seen name opens)
    exact ⟨_, placed, measured.put depth⟩

/-- A map that holds fewer names with their depths has fewer entries. -/
theorem Measured.subset {names : List String} {otherLayers : NameMap Nat}
    (measured : Measured activities seen layers)
    (otherMeasured : Measured activities names otherLayers) (subset : seen ⊆ names) :
    layers ⊆ otherLayers := by
  intro entry member
  have found := (NameMap.mem_iff_get? measured.nodup).mp member
  have held := (measured.keys entry.1).mp (NameMap.mem_names_iff.mpr ⟨_, found⟩)
  obtain ⟨layer, otherFound⟩ :=
    NameMap.mem_names_iff.mp ((otherMeasured.keys entry.1).mpr (subset held))
  have same := (measured.depth _ _ found).unique (otherMeasured.depth _ _ otherFound)
  exact (NameMap.mem_iff_get? otherMeasured.nodup).mpr (same ▸ otherFound)

/-- Two maps that hold the same names with their depths have the same entries. -/
theorem Measured.perm {names : List String} {otherLayers : NameMap Nat}
    (measured : Measured activities seen layers)
    (otherMeasured : Measured activities names otherLayers)
    (same : ∀ name, name ∈ seen ↔ name ∈ names) : layers.Perm otherLayers := by
  rw [List.perm_ext_iff_of_nodup measured.nodup.of_map otherMeasured.nodup.of_map]
  intro entry
  constructor
  · exact fun member => measured.subset otherMeasured (fun name => (same name).mp) member
  · exact fun member => otherMeasured.subset measured (fun name => (same name).mpr) member

end Placing

/-! ## Topological orders -/

section Orders

variable {activities : List Activity} {order : List String}

/-- In a topological order a name stands behind all its predecessors. -/
theorem TopologicalOrder.ready (ordered : TopologicalOrder activities order)
    (seen : List String) (name : String) (opens : seen ++ [name] <+: order) :
    (predecessors activities).targets name ⊆ seen := by
  intro before member
  have precedes := mem_targets_predecessors.mp member
  exact mem_of_idxOf_lt opens ordered.nodup (ordered.sorted before name precedes)

/-- A network that can be ordered has no cycle. -/
theorem TopologicalOrder.acyclic (ordered : TopologicalOrder activities order) :
    Acyclic activities := by
  have ahead : ∀ before after, Relation.TransGen (Precedes activities) before after →
      order.idxOf before < order.idxOf after := by
    intro before after chain
    induction chain with
    | single precedes => exact ordered.sorted _ _ precedes
    | tail _ precedes induction => exact induction.trans (ordered.sorted _ _ precedes)
  exact fun name cycle => lt_irrefl _ (ahead name name cycle)

/-- The search finds a topological order of a network without cycles. -/
theorem depthFirstOrder_ordered
    (acyclic : (depthFirstOrder (successors activities)).1 = false) :
    TopologicalOrder activities (depthFirstOrder (successors activities)).2 := by
  obtain ⟨nodup, listed, _, sorted⟩ := depthFirstOrder_sound (closed_successors activities)
  refine ⟨nodup, fun name => (listed name).trans mem_names_successors, ?_⟩
  intro before after precedes
  have known := (listed before).mpr (mem_names_successors.mpr precedes.named.1)
  exact ((sorted acyclic).idxOf_lt nodup known (leads_successors_iff.mpr precedes)).2

end Orders

/-! ## The schedule of a network -/

section Schedule

variable {activities : List Activity}

/-- The analysis of a network without cycles finds a topological order, measures the depths
of the names and draws them. -/
theorem analyse_schedules (acyclic : Acyclic activities) :
    ∃ schedule, (analyse activities).result = .ok ⟨successors activities, some schedule⟩ ∧
      TopologicalOrder activities schedule.order ∧
      Measured activities schedule.order schedule.layers ∧
      grid schedule.order schedule.layers defaultSpacing = .ok schedule.nodes := by
  obtain ⟨_, _, cyclic, _⟩ := depthFirstOrder_sound (closed_successors activities)
  rw [leads_successors] at cyclic
  have found : (depthFirstOrder (successors activities)).1 = false :=
    Bool.eq_false_iff.mpr fun met => not_exists.mpr acyclic (cyclic.mp met)
  have ordered := depthFirstOrder_ordered found
  obtain ⟨layers, layered, measured⟩ := layersAlong_measured ordered.ready
  have placed : (depthFirstOrder (successors activities)).2 ⊆ layers.names :=
    fun name member => (measured.keys name).mpr member
  obtain ⟨nodes, drawn⟩ := grid_eq_ok placed defaultSpacing
  refine ⟨⟨_, layers, nodes⟩, ?_, ordered, measured, drawn⟩
  simp [result_analyse, found, layered, drawn]

/-- The analysis of a network lists its edges, and unless a name precedes itself through a
chain it also lists every name once and measures its depth. -/
theorem analyse_measures (activities : List Activity) :
    ∃ analysis, (analyse activities).result = .ok analysis ∧
      analysis.graph = successors activities ∧
      (analysis.schedule = none ↔
        ∃ name, Relation.TransGen (Precedes activities) name name) ∧
      ∀ schedule, analysis.schedule = some schedule →
        schedule.order.Nodup ∧
        (∀ name, name ∈ schedule.order ↔ Named activities name) ∧
        Measured activities schedule.order schedule.layers := by
  by_cases acyclic : Acyclic activities
  · obtain ⟨schedule, result, ordered, measured, _⟩ := analyse_schedules acyclic
    refine ⟨_, result, rfl, ?_, ?_⟩
    · simpa [Acyclic] using acyclic
    · rintro _ ⟨⟩
      exact ⟨ordered.nodup, ordered.listed, measured⟩
  · have cycle : ∃ name, Relation.TransGen (Precedes activities) name name := by
      simpa [Acyclic] using acyclic
    obtain ⟨_, _, cyclic, _⟩ := depthFirstOrder_sound (closed_successors activities)
    rw [leads_successors] at cyclic
    rw [result_analyse, if_pos (cyclic.mpr cycle)]
    exact ⟨_, rfl, rfl, ⟨fun _ => cycle, fun _ => rfl⟩, by simp⟩

/-- The layers of a network without cycles are a map from the declared and mentioned names:
the layer of a name is the length of the longest chain of predecessors that ends in it, and
zero for the names without predecessors only.  Every topological order of the network gives
this map, and none makes the placement fail. -/
theorem layers_measure_longest_chains (acyclic : Acyclic activities) :
    ∃ schedule, (analyse activities).result = .ok ⟨successors activities, some schedule⟩ ∧
      schedule.layers.names.Nodup ∧
      (∀ name, name ∈ schedule.layers.names ↔ Named activities name) ∧
      (∀ name layer, NameMap.get? schedule.layers name = some layer →
        Depth activities name layer ∧
          (layer = 0 ↔ ∀ before, ¬ Precedes activities before name)) ∧
      ∀ order, TopologicalOrder activities order →
        ∃ layers, layersAlong order (predecessors activities) = .ok layers ∧
          layers.Perm schedule.layers := by
  obtain ⟨schedule, result, ordered, measured, _⟩ := analyse_schedules acyclic
  refine ⟨schedule, result, measured.nodup, ?_, ?_, ?_⟩
  · exact fun name => (measured.keys name).trans (ordered.listed name)
  · intro name layer found
    have depth := measured.depth name layer found
    exact ⟨depth, depth.eq_zero_iff⟩
  · intro order other
    obtain ⟨layers, layered, otherMeasured⟩ := layersAlong_measured other.ready
    refine ⟨layers, layered, otherMeasured.perm measured fun name => ?_⟩
    exact (other.listed name).trans (ordered.listed name).symm

/-- Two activities between a first and a last one. -/
def diamond : List Activity :=
  [⟨"first", []⟩, ⟨"left", ["first"]⟩, ⟨"right", ["first"]⟩, ⟨"last", ["left", "right"]⟩]

theorem diamond_ordered : TopologicalOrder diamond ["first", "left", "right", "last"] where
  nodup := by decide
  listed := by
    intro name
    simp [Named, diamond]
    tauto
  sorted := by
    intro before after precedes
    simp [Precedes, diamond] at precedes
    rcases precedes with ⟨rfl, rfl⟩ | ⟨rfl, rfl⟩ | ⟨rfl, rfl | rfl⟩ <;> decide

theorem diamond_layers_are_depths :
    Acyclic diamond ∧
      ∃ schedule, (analyse diamond).result = .ok ⟨successors diamond, some schedule⟩ ∧
        schedule.layers.names.Nodup ∧
        (∀ name, name ∈ schedule.layers.names ↔ Named diamond name) ∧
        (∀ name layer, NameMap.get? schedule.layers name = some layer →
          Depth diamond name layer ∧
            (layer = 0 ↔ ∀ before, ¬ Precedes diamond before name)) ∧
        ∀ order, TopologicalOrder diamond order →
          ∃ layers, layersAlong order (predecessors diamond) = .ok layers ∧
            layers.Perm schedule.layers :=
  ⟨diamond_ordered.acyclic, layers_measure_longest_chains diamond_ordered.acyclic⟩

end Schedule

end OptimalPlans.Precedence
