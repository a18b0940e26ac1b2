import OptimalPlans.Journal
import OptimalPlans.Precedence.Layer
import OptimalPlans.Precedence.Search

/-!
# Analysis of precedence networks

A network without cycles gets an order in which every activity follows its
predecessors, the layers of its names, and a drawing.  A network with a cycle gets
none of these.
-/

namespace OptimalPlans.Precedence

/-- What only a network without cycles has. -/
structure Schedule where
  order : List String
  layers : NameMap Nat
  nodes : List (Node Int)

structure Analysis where
  graph : Graph
  schedule : Option Schedule

def Analysis.message (analysis : Analysis) : String :=
  match analysis.schedule with
  | some _ => "Valid network flow. Topological order computed."
  | none => "The network contains a cycle. Fix dependencies."

/-- The measures of the drawing. -/
def defaultSpacing : Spacing Int where
  width := 100
  gap := 40
  height := 120

def analyse (activities : List Activity) : Journal Analysis := do
  let graph := successors activities
  let (cyclic, order) := depthFirstOrder graph
  if cyclic then
    Journal.note .precedence .warning
      ("Precedence network with " ++ toString graph.length ++
        " activities contains a cycle")
    return { graph, schedule := none }
  else
    let layers ← layersAlong order (predecessors activities)
    Journal.note .precedence .info
      ("Topological order: " ++ String.intercalate " -> " order)
    let nodes ← grid order layers defaultSpacing
    return { graph, schedule := some { order, layers, nodes } }

end OptimalPlans.Precedence
