import OptimalPlans.Precedence.Network
import OptimalPlans.Scalar

/-!
# Layers and the grid

The layer of a name is one more than the deepest layer of its predecessors, and
zero without any.  The grid draws each layer as a line of nodes, one layer below
the other.
-/

namespace OptimalPlans.Precedence

/-- The layer of a placed name. -/
def layerOf (layers : NameMap Nat) (name : String) : Except Fault Nat :=
  match NameMap.get? layers name with
  | some layer => .ok layer
  | none => .error (.absentKey (Quoted.quote name))

/-- One more than the deepest of the given layers. -/
def below (layers : List Nat) : Nat :=
  match layers with
  | [] => 0
  | first :: rest => 1 + rest.foldl max first

/-- Places names one after the other, below their predecessors, which have to be
placed already. -/
def layersAlong (order : List String) (predecessors : Graph) :
    Except Fault (NameMap Nat) :=
  order.foldlM (fun layers name => do
    let above ← (predecessors.targets name).mapM (layerOf layers)
    return NameMap.put layers name (below above)) []

/-- The measures of a grid: the width of a node, the gap between two nodes, and the
height of a layer. -/
structure Spacing (α : Type) where
  width : α
  gap : α
  height : α

structure Node (α : Type) where
  name : String
  x : α
  y : α
deriving DecidableEq, Repr

variable {α : Type} [Scalar α]

def placeNode (spacing : Spacing α) (layer index : Nat) (name : String) :
    Except Fault (Node α) := do
  let stride ← Scalar.add spacing.width spacing.gap
  let x ← Scalar.mul (Scalar.ofInt index) stride
  let y ← Scalar.mul (Scalar.ofInt layer) spacing.height
  return { name, x, y }

/-- The nodes layer by layer, inside a layer in the given order. -/
def grid (order : List String) (layers : NameMap Nat) (spacing : Spacing α) :
    Except Fault (List (Node α)) := do
  let placed ← order.mapM fun name => do return (name, ← layerOf layers name)
  let depths := (placed.map (·.2)).eraseDups.mergeSort
  let rows ← depths.mapM fun depth => do
    let names := (placed.filter fun entry => entry.2 == depth).map (·.1)
    names.zipIdx.mapM fun (name, index) => placeNode spacing depth index name
  return rows.flatten

end OptimalPlans.Precedence
