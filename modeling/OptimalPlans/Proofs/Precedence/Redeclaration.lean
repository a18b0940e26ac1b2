import OptimalPlans.Proofs.Precedence.LayerDepth

/-!
# The same network declared differently

A list of activities can be reordered, and an activity can be declared in several parts
that share its name and together mention its predecessors.  Neither changes which names
there are or which name precedes which, and the analysis depends on nothing else, except
for the order in which it lists what it finds.
-/

namespace OptimalPlans.Precedence

/-- A list of activities declares the same network as another, up to the order of the
activities and the division of activities into parts. -/
inductive Redeclared : List Activity → List Activity → Prop
  | reorder {activities others : List Activity} (permutation : activities.Perm others) :
      Redeclared activities others
  | split {ahead behind parts : List Activity} {activity : Activity} (nonempty : parts ≠ [])
      (named : ∀ part ∈ parts, part.name = activity.name)
      (together : ∀ name, name ∈ activity.predecessors ↔
        ∃ part ∈ parts, name ∈ part.predecessors) :
      Redeclared (ahead ++ activity :: behind) (ahead ++ parts ++ behind)
  | trans {activities between others : List Activity} (first : Redeclared activities between)
      (second : Redeclared between others) : Redeclared activities others

variable {activities others : List Activity}

theorem precedes_append_iff {before after : String} :
    Precedes (activities ++ others) before after ↔
      Precedes activities before after ∨ Precedes others before after := by
  simp [Precedes, or_and_right, exists_or]

theorem named_append_iff {name : String} :
    Named (activities ++ others) name ↔ Named activities name ∨ Named others name := by
  simp only [Named, List.mem_append, or_and_right, exists_or]

theorem Redeclared.precedes_iff (redeclared : Redeclared activities others)
    (before after : String) :
    Precedes activities before after ↔ Precedes others before after := by
  induction redeclared with
  | reorder permutation => simp only [Precedes, permutation.mem_iff]
  | split nonempty named together =>
      rename_i ahead behind parts activity
      have divided : (activity.name = after ∧ before ∈ activity.predecessors) ↔
          Precedes parts before after := by
        rw [together before]
        constructor
        · rintro ⟨same, part, member, mentioned⟩
          exact ⟨part, member, (named part member).trans same, mentioned⟩
        · rintro ⟨part, member, same, mentioned⟩
          exact ⟨(named part member).symm.trans same, part, member, mentioned⟩
      rw [precedes_append_iff, precedes_append_iff, precedes_append_iff, precedes_cons_iff,
        divided, or_assoc]
  | trans first second firstInduction secondInduction =>
      exact firstInduction.trans secondInduction

theorem Redeclared.named_iff (redeclared : Redeclared activities others) (name : String) :
    Named activities name ↔ Named others name := by
  induction redeclared with
  | reorder permutation => simp only [Named, permutation.mem_iff]
  | split nonempty named together =>
      rename_i ahead behind parts activity
      have divided : (name = activity.name ∨ name ∈ activity.predecessors) ↔
          Named parts name := by
        rw [together name]
        constructor
        · rintro (same | ⟨part, member, mentioned⟩)
          · obtain ⟨part, member⟩ := List.exists_mem_of_ne_nil parts nonempty
            exact ⟨part, member, .inl (same.trans (named part member).symm)⟩
          · exact ⟨part, member, .inr mentioned⟩
        · rintro ⟨part, member, same | mentioned⟩
          · exact .inl (same.trans (named part member))
          · exact .inr ⟨part, member, mentioned⟩
      rw [named_append_iff, named_append_iff, named_append_iff, named_cons_iff, divided,
        or_assoc]
  | trans first second firstInduction secondInduction =>
      exact firstInduction.trans secondInduction

/-! ## One relation, one analysis -/

theorem ChainTo.congr (same : Precedes activities = Precedes others) {length : Nat}
    {name : String} (chain : ChainTo activities length name) :
    ChainTo others length name := by
  induction chain with
  | here name => exact .here name
  | step chain precedes induction => exact .step induction (same ▸ precedes)

theorem Depth.congr (same : Precedes activities = Precedes others) {name : String}
    {depth : Nat} (greatest : Depth activities name depth) : Depth others name depth :=
  ⟨greatest.1.congr same, fun _ chain => greatest.2 (ChainTo.congr same.symm chain)⟩

theorem Measured.congr (same : Precedes activities = Precedes others) {names : List String}
    {layers : NameMap Nat} (measured : Measured activities names layers) :
    Measured others names layers where
  nodup := measured.nodup
  keys := measured.keys
  depth name layer found := (measured.depth name layer found).congr same

/-- Two maps that hold the same names with their depths are the same map. -/
theorem Measured.get?_eq {names otherNames : List String} {layers otherLayers : NameMap Nat}
    (measured : Measured activities names layers)
    (otherMeasured : Measured others otherNames otherLayers)
    (same : Precedes activities = Precedes others)
    (known : ∀ name, name ∈ names ↔ name ∈ otherNames) (name : String) :
    NameMap.get? layers name = NameMap.get? otherLayers name := by
  have entries := (measured.congr same).perm otherMeasured known
  apply Option.ext
  intro layer
  rw [← NameMap.mem_iff_get? measured.nodup, ← NameMap.mem_iff_get? otherMeasured.nodup,
    entries.mem_iff]

/-- Reordering the activities of a network, or declaring an activity in parts, changes
neither whether the analysis finds a cycle nor the edges it lists.  Without a cycle it
changes neither the layer of any name nor which names the order lists. -/
theorem analyse_redeclared (redeclared : Redeclared activities others) :
    ∃ analysis other, (analyse activities).result = .ok analysis ∧
      (analyse others).result = .ok other ∧
      (analysis.schedule = none ↔ other.schedule = none) ∧
      (∀ edge, edge ∈ analysis.graph.edges ↔ edge ∈ other.graph.edges) ∧
      ∀ schedule otherSchedule, analysis.schedule = some schedule →
        other.schedule = some otherSchedule →
        (∀ name, NameMap.get? schedule.layers name =
          NameMap.get? otherSchedule.layers name) ∧
        schedule.order.Perm otherSchedule.order := by
  have same : Precedes activities = Precedes others := by
    funext before after
    exact propext (redeclared.precedes_iff before after)
  obtain ⟨analysis, result, graph, cyclic, measures⟩ := analyse_measures activities
  obtain ⟨other, otherResult, otherGraph, otherCyclic, otherMeasures⟩ :=
    analyse_measures others
  refine ⟨analysis, other, result, otherResult, ?_, ?_, ?_⟩
  · rw [cyclic, otherCyclic, same]
  · intro ⟨before, after⟩
    rw [graph, otherGraph, mem_edges_successors, mem_edges_successors, same]
  · intro schedule otherSchedule found otherFound
    obtain ⟨nodup, listed, measured⟩ := measures schedule found
    obtain ⟨otherNodup, otherListed, otherMeasured⟩ :=
      otherMeasures otherSchedule otherFound
    have known : ∀ name, name ∈ schedule.order ↔ name ∈ otherSchedule.order := by
      intro name
      rw [listed, otherListed, redeclared.named_iff]
    exact ⟨measured.get?_eq otherMeasured same known,
      (List.perm_ext_iff_of_nodup nodup otherNodup).mpr known⟩

/-- A roof that rests on walls and beams, the walls on a base. -/
def house : List Activity :=
  [⟨"walls", ["base"]⟩, ⟨"roof", ["walls", "beams"]⟩]

/-- The same house: the roof is declared for the beams first and later for the walls. -/
def houseInParts : List Activity :=
  [⟨"roof", ["beams"]⟩, ⟨"walls", ["base"]⟩, ⟨"roof", ["walls"]⟩]

theorem house_in_parts_keeps_layers :
    Redeclared house houseInParts ∧
      ∃ analysis other, (analyse house).result = .ok analysis ∧
        (analyse houseInParts).result = .ok other ∧
        (analysis.schedule = none ↔ other.schedule = none) ∧
        (∀ edge, edge ∈ analysis.graph.edges ↔ edge ∈ other.graph.edges) ∧
        ∀ schedule otherSchedule, analysis.schedule = some schedule →
          other.schedule = some otherSchedule →
          (∀ name, NameMap.get? schedule.layers name =
            NameMap.get? otherSchedule.layers name) ∧
          schedule.order.Perm otherSchedule.order := by
  have split : Redeclared house
      [⟨"walls", ["base"]⟩, ⟨"roof", ["beams"]⟩, ⟨"roof", ["walls"]⟩] :=
    @Redeclared.split [⟨"walls", ["base"]⟩] [] [⟨"roof", ["beams"]⟩, ⟨"roof", ["walls"]⟩]
      ⟨"roof", ["walls", "beams"]⟩ (by simp) (by simp) (by simp [or_comm])
  have redeclared := split.trans (.reorder (List.Perm.swap _ _ _) : Redeclared _ houseInParts)
  exact ⟨redeclared, analyse_redeclared redeclared⟩

end OptimalPlans.Precedence
