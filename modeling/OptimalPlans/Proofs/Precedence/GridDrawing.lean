import OptimalPlans.Proofs.Precedence.LayerDepth

/-!
# The drawing of a network

The grid collects the names of each layer and draws the layers one below the other.  Inside
a layer the names keep the order they have, so every name gets a place of its own, and an
edge, which leads to a deeper layer, points down.
-/

namespace OptimalPlans.Precedence

/-- The layer that a map holds for a name. -/
def layerAt (layers : NameMap Nat) (name : String) : Nat :=
  (NameMap.get? layers name).getD 0

/-- Nodes that draw the names of an order in a grid, each in the layer of its name. -/
structure Draws (spacing : Spacing Int) (layer : String → Nat) (order : List String)
    (nodes : List (Node Int)) : Prop where
  names : (nodes.map Node.name).Perm order
  sorted : nodes.Pairwise fun node other =>
    layer node.name < layer other.name ∨ layer node.name = layer other.name ∧
      order.idxOf node.name < order.idxOf other.name
  columns : ∀ depth, ∃ count,
    (nodes.filter fun node => layer node.name == depth).map Node.x =
      (List.range count).map fun (index : Nat) =>
        (index : Int) * (spacing.width + spacing.gap)
  rows : ∀ node ∈ nodes, node.y = layer node.name * spacing.height
  apart : (nodes.map fun node => (node.x, node.y)).Nodup

/-! ## The nodes of a grid -/

section Grid

variable (spacing : Spacing Int) (layer : String → Nat) (order : List String)

def nodeAt (depth : Nat) (place : String × Nat) : Node Int where
  name := place.1
  x := place.2 * (spacing.width + spacing.gap)
  y := depth * spacing.height

/-- The nodes of the names in a layer, from left to right. -/
def rowAt (depth : Nat) : List (Node Int) :=
  (order.filter fun name => layer name == depth).zipIdx.map (nodeAt spacing depth)

/-- The layers in use, from top to bottom. -/
def usedLayers : List Nat :=
  (order.map layer).eraseDups.mergeSort

def gridNodes : List (Node Int) :=
  (usedLayers layer order).flatMap (rowAt spacing layer order)

variable {spacing layer order} {layers : NameMap Nat} {depth : Nat}

/-- A grid of names that all have a layer is drawn row by row. -/
theorem grid_eq_gridNodes (placed : ∀ name ∈ order, layerOf layers name = .ok (layer name)) :
    grid order layers spacing = .ok (gridNodes spacing layer order) := by
  have read : order.mapM (fun name => do return (name, ← layerOf layers name)) =
      (.ok (order.map fun name => (name, layer name)) : Except Fault _) :=
    mapM_eq_ok fun name member => by rw [placed name member, ok_bind, pure_eq_ok]
  have depths : (order.map fun name => (name, layer name)).map (·.2) = order.map layer := by
    rw [List.map_map]
    rfl
  have row : ∀ depth, ((order.map fun name => (name, layer name)).filter fun entry =>
      entry.2 == depth).map (·.1) = order.filter fun name => layer name == depth := by
    intro depth
    rw [List.filter_map, List.map_map]
    exact List.map_id _
  have drawn : ∀ depth ∈ usedLayers layer order,
      (order.filter fun name => layer name == depth).zipIdx.mapM
        (fun place => placeNode spacing depth place.2 place.1) =
          .ok (rowAt spacing layer order depth) :=
    fun depth _ => mapM_eq_ok fun place _ => rfl
  unfold grid
  rw [read, ok_bind]
  simp only [depths, row]
  rw [← usedLayers, mapM_eq_ok drawn, ok_bind, pure_eq_ok, gridNodes, List.flatMap_def]

example : grid ["walls", "roof", "drains"] [("walls", 0), ("roof", 1), ("drains", 0)]
    defaultSpacing = .ok [⟨"walls", 0, 0⟩, ⟨"drains", 140, 0⟩, ⟨"roof", 0, 120⟩] := by
  cbv

theorem mem_usedLayers_iff :
    depth ∈ usedLayers layer order ↔ ∃ name ∈ order, layer name = depth := by
  rw [usedLayers, List.mem_mergeSort, List.mem_eraseDups, List.mem_map]

theorem usedLayers_ascend : (usedLayers layer order).Pairwise (· < ·) := by
  have nodup : (usedLayers layer order).Nodup :=
    (List.mergeSort_perm _ _).nodup_iff.mpr (nodup_eraseDups _)
  have sorted : (usedLayers layer order).Pairwise (· ≤ ·) :=
    List.pairwise_mergeSort' (· ≤ ·) _
  exact (sorted.and nodup).imp fun both => Nat.lt_of_le_of_ne both.1 both.2

/-! ## One row -/

theorem names_rowAt :
    (rowAt spacing layer order depth).map Node.name =
      order.filter fun name => layer name == depth := by
  have named : Node.name ∘ nodeAt spacing depth = Prod.fst := rfl
  rw [rowAt, List.map_map, named, List.zipIdx_map_fst]

theorem columns_rowAt :
    (rowAt spacing layer order depth).map Node.x =
      (List.range (rowAt spacing layer order depth).length).map fun (index : Nat) =>
        (index : Int) * (spacing.width + spacing.gap) := by
  have placed : Node.x ∘ nodeAt spacing depth =
      (fun (index : Nat) => (index : Int) * (spacing.width + spacing.gap)) ∘ Prod.snd := rfl
  rw [rowAt, List.map_map, placed, ← List.map_map, List.zipIdx_map_snd, List.length_map,
    List.length_zipIdx, List.range_eq_range']

theorem mem_rowAt {node : Node Int} (member : node ∈ rowAt spacing layer order depth) :
    node.name ∈ order ∧ layer node.name = depth ∧ node.y = depth * spacing.height := by
  have named := List.mem_map_of_mem (f := Node.name) member
  rw [names_rowAt, List.mem_filter, beq_iff_eq] at named
  obtain ⟨place, _, rfl⟩ := List.mem_map.mp member
  exact ⟨named.1, named.2, rfl⟩

/-! ## The rows together -/

/-- Where every row holds the items of its own key, the items of a key are its row. -/
theorem filter_flatMap_row {α : Type} {key : α → Nat} {row : Nat → List α} {keys : List Nat}
    (own : ∀ depth, ∀ item ∈ row depth, key item = depth) (nodup : keys.Nodup)
    (used : depth ∉ keys → row depth = []) :
    (keys.flatMap row).filter (fun item => key item == depth) = row depth := by
  induction keys with
  | nil => exact (used List.not_mem_nil).symm
  | cons first rest induction =>
      obtain ⟨absent, restNodup⟩ := List.nodup_cons.mp nodup
      rw [List.flatMap_cons, List.filter_append]
      by_cases same : first = depth
      · subst same
        have whole : (row first).filter (fun item => key item == first) = row first :=
          List.filter_eq_self.mpr fun item member => by simp [own first item member]
        have others : (rest.flatMap row).filter (fun item => key item == first) = [] := by
          rw [List.filter_eq_nil_iff]
          intro item member found
          obtain ⟨other, listed, held⟩ := List.mem_flatMap.mp member
          have same : other = first := (own other item held).symm.trans (beq_iff_eq.mp found)
          exact absent (same ▸ listed)
        rw [whole, others, List.append_nil]
      · have none : (row first).filter (fun item => key item == depth) = [] := by
          rw [List.filter_eq_nil_iff]
          intro item member
          simpa [own first item member] using same
        have later : depth ∉ rest → row depth = [] := fun unused =>
          used (List.not_mem_cons_of_ne_of_not_mem (Ne.symm same) unused)
        rw [none, induction restNodup later, List.nil_append]

theorem nodup_usedLayers : (usedLayers layer order).Nodup :=
  usedLayers_ascend.imp Nat.ne_of_lt

theorem filter_gridNodes (depth : Nat) :
    (gridNodes spacing layer order).filter (fun node => layer node.name == depth) =
      rowAt spacing layer order depth := by
  apply filter_flatMap_row (fun depth node member => (mem_rowAt member).2.1) nodup_usedLayers
  intro unused
  have empty : (order.filter fun name => layer name == depth) = [] := by
    rw [List.filter_eq_nil_iff]
    intro name member found
    exact unused (mem_usedLayers_iff.mpr ⟨name, member, beq_iff_eq.mp found⟩)
  rw [rowAt, empty, List.zipIdx_nil, List.map_nil]

theorem mem_gridNodes {node : Node Int} (member : node ∈ gridNodes spacing layer order) :
    node.name ∈ order ∧ node.y = layer node.name * spacing.height := by
  obtain ⟨depth, _, inRow⟩ := List.mem_flatMap.mp member
  obtain ⟨listed, rfl, height⟩ := mem_rowAt inRow
  exact ⟨listed, height⟩

theorem mem_names_gridNodes {name : String} :
    name ∈ (gridNodes spacing layer order).map Node.name ↔ name ∈ order := by
  constructor
  · intro member
    obtain ⟨node, drawn, rfl⟩ := List.mem_map.mp member
    exact (mem_gridNodes drawn).1
  · intro listed
    have inRow : name ∈ (rowAt spacing layer order (layer name)).map Node.name := by
      rw [names_rowAt]
      exact List.mem_filter.mpr ⟨listed, beq_self_eq_true _⟩
    obtain ⟨node, drawn, named⟩ := List.mem_map.mp inRow
    have used : layer name ∈ usedLayers layer order :=
      mem_usedLayers_iff.mpr ⟨name, listed, rfl⟩
    exact List.mem_map.mpr ⟨node, List.mem_flatMap.mpr ⟨_, used, drawn⟩, named⟩

theorem pairwise_idxOf_lt (nodup : order.Nodup) :
    order.Pairwise fun name other => order.idxOf name < order.idxOf other := by
  rw [List.pairwise_iff_getElem]
  intro index later bound laterBound before
  rwa [nodup.idxOf_getElem, nodup.idxOf_getElem]

theorem sorted_gridNodes (nodup : order.Nodup) :
    (gridNodes spacing layer order).Pairwise fun node other =>
      layer node.name < layer other.name ∨ layer node.name = layer other.name ∧
        order.idxOf node.name < order.idxOf other.name := by
  rw [gridNodes, List.pairwise_flatMap]
  constructor
  · intro depth _
    have ahead : ((rowAt spacing layer order depth).map Node.name).Pairwise fun name other =>
        order.idxOf name < order.idxOf other := by
      rw [names_rowAt]
      exact (pairwise_idxOf_lt nodup).filter _
    apply (List.pairwise_map.mp ahead).imp_of_mem
    intro node other member otherMember before
    exact .inr ⟨(mem_rowAt member).2.1.trans (mem_rowAt otherMember).2.1.symm, before⟩
  · apply usedLayers_ascend.imp
    intro depth deeper below node member other otherMember
    rw [(mem_rowAt member).2.1, (mem_rowAt otherMember).2.1]
    exact .inl below

/-- Two nodes differ in their columns or in their rows. -/
theorem apart_gridNodes (wide : spacing.width + spacing.gap ≠ 0) (high : spacing.height ≠ 0) :
    ((gridNodes spacing layer order).map fun node => (node.x, node.y)).Nodup := by
  rw [List.Nodup, List.pairwise_map, gridNodes, List.pairwise_flatMap]
  constructor
  · intro depth _
    have columns : ((rowAt spacing layer order depth).map Node.x).Nodup := by
      rw [columns_rowAt]
      apply List.nodup_range.map
      intro index other same
      exact Int.ofNat_inj.mp (mul_right_cancel₀ wide same)
    exact (List.pairwise_map.mp columns).imp fun different same =>
      different (congrArg Prod.fst same)
  · apply usedLayers_ascend.imp
    intro depth deeper below node member other otherMember same
    have rows : (depth : Int) * spacing.height = deeper * spacing.height := by
      rw [← (mem_rowAt member).2.2, ← (mem_rowAt otherMember).2.2]
      exact congrArg Prod.snd same
    exact below.ne (Int.ofNat_inj.mp (mul_right_cancel₀ high rows))

/-- Every name of the order is drawn once. -/
theorem names_gridNodes_perm (nodup : order.Nodup) :
    ((gridNodes spacing layer order).map Node.name).Perm order := by
  have sorted : (gridNodes spacing layer order).Pairwise _ := sorted_gridNodes nodup
  have apart : ((gridNodes spacing layer order).map Node.name).Nodup := by
    apply List.pairwise_map.mpr
    apply sorted.imp
    rintro node other (above | ⟨_, ahead⟩) same
    · exact above.ne (congrArg layer same)
    · exact ahead.ne (congrArg order.idxOf same)
  exact (List.perm_ext_iff_of_nodup apart nodup).mpr fun name => mem_names_gridNodes

theorem gridNodes_draws (nodup : order.Nodup) (wide : spacing.width + spacing.gap ≠ 0)
    (high : spacing.height ≠ 0) :
    Draws spacing layer order (gridNodes spacing layer order) where
  names := names_gridNodes_perm nodup
  sorted := sorted_gridNodes nodup
  columns := by
    intro depth
    rw [filter_gridNodes]
    exact ⟨_, columns_rowAt⟩
  rows node member := (mem_gridNodes member).2
  apart := apart_gridNodes wide high

end Grid

/-! ## The drawing of a network -/

section Drawing

variable {activities : List Activity} {layers : NameMap Nat}

theorem get?_eq_layerAt {name : String} (held : name ∈ layers.names) :
    NameMap.get? layers name = some (layerAt layers name) := by
  obtain ⟨layer, found⟩ := NameMap.mem_names_iff.mp held
  rw [layerAt, found, Option.getD_some]

theorem layerOf_eq_layerAt {name : String} (held : name ∈ layers.names) :
    layerOf layers name = .ok (layerAt layers name) := by
  rw [layerOf, get?_eq_layerAt held]

/-- Where a name is drawn in a higher layer than another, its node lies above by the height
of a layer or more. -/
theorem Draws.above {spacing : Spacing Int} {layer : String → Nat} {order : List String}
    {nodes : List (Node Int)} (draws : Draws spacing layer order nodes)
    (high : 0 ≤ spacing.height) {name other : String} (listed : name ∈ order)
    (otherListed : other ∈ order) (deeper : layer name < layer other) :
    ∃ node ∈ nodes, ∃ below ∈ nodes, node.name = name ∧ below.name = other ∧
      node.y + spacing.height ≤ below.y := by
  obtain ⟨node, member, rfl⟩ := List.mem_map.mp (draws.names.mem_iff.mpr listed)
  obtain ⟨below, belowMember, rfl⟩ := List.mem_map.mp (draws.names.mem_iff.mpr otherListed)
  refine ⟨node, member, below, belowMember, rfl, rfl, ?_⟩
  rw [draws.rows node member, draws.rows below belowMember]
  calc (layer node.name : Int) * spacing.height + spacing.height
      = ((layer node.name + 1 : Nat) : Int) * spacing.height := by push_cast; ring
    _ ≤ (layer below.name : Int) * spacing.height :=
        mul_le_mul_of_nonneg_right (Int.ofNat_le.mpr deeper) high

/-- The drawing of a network without cycles shows every name once, layer by layer and in a
layer from left to right as in the order.  No two nodes share a position, and an edge leads
down by the height of a layer or more. -/
theorem drawing_points_down (acyclic : Acyclic activities) :
    ∃ schedule, (analyse activities).result = .ok ⟨successors activities, some schedule⟩ ∧
      TopologicalOrder activities schedule.order ∧
      (∀ name ∈ schedule.order,
        NameMap.get? schedule.layers name = some (layerAt schedule.layers name)) ∧
      Draws defaultSpacing (layerAt schedule.layers) schedule.order schedule.nodes ∧
      ∀ before after, (before, after) ∈ (successors activities).edges →
        ∃ source ∈ schedule.nodes, ∃ target ∈ schedule.nodes,
          source.name = before ∧ target.name = after ∧
            source.y + defaultSpacing.height ≤ target.y := by
  obtain ⟨schedule, result, ordered, measured, drawn⟩ := analyse_schedules acyclic
  have held : ∀ name ∈ schedule.order, name ∈ schedule.layers.names :=
    fun name member => (measured.keys name).mpr member
  rw [grid_eq_gridNodes fun name member => layerOf_eq_layerAt (held name member)] at drawn
  have draws : Draws defaultSpacing (layerAt schedule.layers) schedule.order schedule.nodes :=
    Except.ok.inj drawn ▸ gridNodes_draws ordered.nodup (by decide) (by decide)
  refine ⟨schedule, result, ordered, fun name member => get?_eq_layerAt (held name member),
    draws, ?_⟩
  intro before after edge
  have precedes := mem_edges_successors.mp edge
  have listed := (ordered.listed before).mpr precedes.named.1
  have otherListed := (ordered.listed after).mpr precedes.named.2
  have depth := measured.depth before _ (get?_eq_layerAt (held before listed))
  have otherDepth := measured.depth after _ (get?_eq_layerAt (held after otherListed))
  exact draws.above (by decide) listed otherListed (depth.lt otherDepth precedes)

theorem diamond_is_drawn :
    Acyclic diamond ∧
      ∃ schedule, (analyse diamond).result = .ok ⟨successors diamond, some schedule⟩ ∧
        TopologicalOrder diamond schedule.order ∧
        (∀ name ∈ schedule.order,
          NameMap.get? schedule.layers name = some (layerAt schedule.layers name)) ∧
        Draws defaultSpacing (layerAt schedule.layers) schedule.order schedule.nodes ∧
        ∀ before after, (before, after) ∈ (successors diamond).edges →
          ∃ source ∈ schedule.nodes, ∃ target ∈ schedule.nodes,
            source.name = before ∧ target.name = after ∧
              source.y + defaultSpacing.height ≤ target.y :=
  ⟨diamond_ordered.acyclic, drawing_points_down diamond_ordered.acyclic⟩

end Drawing

end OptimalPlans.Precedence
