import OptimalPlans.Text.Blank
import OptimalPlans.Value.Basic

/-!
# Activities

An activity has a name and the names of the activities that must precede it.
Names are trimmed; blank and repeated predecessors are left out, the first mention
keeping its place.
-/

namespace OptimalPlans.Precedence

structure Activity where
  name : String
  predecessors : List String
deriving DecidableEq, Repr

namespace Activity

/-- Trimmed names that are not blank, each once. -/
def cleanNames (names : List String) : List String :=
  ((names.map trimBlanks).filter fun name => !name.isEmpty).eraseDups

/-- An activity with a given name and predecessors.  Predecessors may be values of
any kind; only missing ones are skipped. -/
def declare (name : Value) (predecessors : List Value) : Except Fault Activity :=
  match name with
  | .text name =>
      if (trimBlanks name).isEmpty then .error .namelessActivity
      else
        let names := (predecessors.filter fun value => !value.isNull).map Value.shown
        .ok { name := trimBlanks name, predecessors := cleanNames names }
  | _ => .error .namelessActivity

/-- The predecessors of a record: a sequence, or a text that separates names by
commas. -/
def predecessorValues (value : Value) : Except Fault (List Value) :=
  if !value.isTruthy then .ok []
  else
    match value with
    | .text names => .ok ((names.splitOn ",").map Value.text)
    | other => other.elements

def ofValue (value : Value) : Except Fault Activity := do
  match value with
  | .record fields =>
      let fields : Fields := fields
      let predecessors ← predecessorValues (fields.getOr "predecessors" .null)
      declare (fields.getOr "activity" (fields.getOr "name" (.text ""))) predecessors
  | other => throw (.notAnActivity other.quoted)

end Activity

end OptimalPlans.Precedence
