import OptimalPlans.Assignment.Solution
import OptimalPlans.Plane.Solution
import OptimalPlans.Precedence.Analysis
import OptimalPlans.Transport.Solution

/-!
# Kinds of problems

The four kinds of problems, their names, and the methods each of them offers.  A
kind is found by its own name or by the name of its screen.
-/

namespace OptimalPlans.Dispatch

inductive Kind where
  | transportation
  | assignment
  | linearProgramming
  | networkFlow
deriving DecidableEq, Repr

namespace Kind

def name : Kind → String
  | transportation => "transportation"
  | assignment => "assignment"
  | linearProgramming => "linear_programming"
  | networkFlow => "network_flow"

def screenName : Kind → String
  | transportation => "transportationProblem"
  | assignment => "assignmentProblem"
  | linearProgramming => "linearProgrammingProblem"
  | networkFlow => "networkFlowProblem"

def title : Kind → String
  | transportation => "Transportation Problem"
  | assignment => "Assignment Problem"
  | linearProgramming => "Linear Programming Problem"
  | networkFlow => "Network Flow Problem"

def all : List Kind :=
  [transportation, assignment, linearProgramming, networkFlow]

def ofName? (name : String) : Option Kind :=
  all.find? fun kind => kind.name == name || kind.screenName == name

/-- The kind a value names, if it is a value that can be looked up. -/
def resolve (value : Value) : Except Fault (Option Kind) := do
  match ← value.lookedUp with
  | .text name => return ofName? name
  | _ => return none

/-- The methods of a kind: keys with labels. -/
def methods : Kind → List (String × String)
  | transportation =>
      Transport.Method.all.map fun method => (method.key, method.label)
  | assignment => [("hungarian", "Hungarian Method")]
  | linearProgramming =>
      [("graph", "Graphical Method"), ("simplex", "Simplex Method")]
  | networkFlow => [("topological", "Precedence Network (Topological Order)")]

end Kind

end OptimalPlans.Dispatch
