import OptimalPlans.Precedence.Activity

/-!
# Networks

The two views of a list of activities: the successors of every name, and the
predecessors of every declared activity.  Both are maps from names that keep the
order of first appearance.
-/

namespace OptimalPlans.Precedence

/-- A map from names, in the order in which the names first appeared. -/
abbrev NameMap (β : Type) := List (String × β)

namespace NameMap

variable {β : Type}

def get? (entries : NameMap β) (name : String) : Option β :=
  List.lookup name entries

def names (entries : NameMap β) : List String :=
  entries.map (·.1)

/-- Replaces the value of a name, or enters the name at the end. -/
def put : NameMap β → String → β → NameMap β
  | [], name, value => [(name, value)]
  | (other, held) :: rest, name, value =>
      if other = name then (name, value) :: rest
      else (other, held) :: put rest name value

def ofPairs (pairs : List (String × β)) : NameMap β :=
  pairs.foldl (fun entries pair => put entries pair.1 pair.2) []

end NameMap

/-- A map from names to names. -/
abbrev Graph := NameMap (List String)

namespace Graph

/-- The names a name leads to. -/
def targets (graph : Graph) (name : String) : List String :=
  (NameMap.get? graph name).getD []

/-- Enters a name that leads nowhere, unless it is there. -/
def ensure (graph : Graph) (name : String) : Graph :=
  match NameMap.get? graph name with
  | some _ => graph
  | none => NameMap.put graph name []

/-- Lets a name lead to another, once. -/
def link (graph : Graph) (source target : String) : Graph :=
  let held := graph.targets source
  if held.contains target then graph else NameMap.put graph source (held ++ [target])

/-- Every pair of a name and a name it leads to. -/
def edges (graph : Graph) : List (String × String) :=
  graph.flatMap fun entry => entry.2.map fun target => (entry.1, target)

end Graph

/-- The successors of every declared or mentioned name. -/
def successors (activities : List Activity) : Graph :=
  activities.foldl (fun graph activity =>
    activity.predecessors.foldl (fun graph predecessor =>
      (graph.ensure predecessor).link predecessor activity.name)
      (graph.ensure activity.name)) []

/-- The predecessors of every declared name, repeated declarations together. -/
def predecessors (activities : List Activity) : Graph :=
  activities.foldl (fun graph activity =>
    activity.predecessors.foldl (fun graph predecessor =>
      graph.link activity.name predecessor) (graph.ensure activity.name)) []

end OptimalPlans.Precedence
