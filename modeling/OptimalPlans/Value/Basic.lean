import OptimalPlans.Number.Numeral
import OptimalPlans.Number.Text

/-!
# Values

The dynamic values of problem files and of the dispatch table: what a JSON
document can hold.  A record keeps its fields in the order in which they first
appeared.  The readings below say what a value counts as where a sequence, a
number or a condition is asked for, and which fault it is otherwise.
-/

namespace OptimalPlans

inductive Value where
  | null
  | truth (value : Bool)
  | number (value : Number)
  | text (value : String)
  | list (items : List Value)
  | record (fields : List (String × Value))

namespace Value

def integer (n : Int) : Value :=
  number (.integer n)

def double (x : Float) : Value :=
  number (.double x)

/-- The word for the type of a value in messages. -/
def typeName : Value → String
  | null => "NoneType"
  | truth _ => "bool"
  | number (.integer _) => "int"
  | number (.double _) => "float"
  | text _ => "str"
  | list _ => "list"
  | record _ => "dict"

mutual

/-- The value as messages quote it. -/
def quoted : Value → String
  | null => "None"
  | truth value => if value then "True" else "False"
  | number value => value.text
  | text value => Quoted.quote value
  | list items => "[" ++ String.intercalate ", " (quotedItems items) ++ "]"
  | record fields => "\x7b" ++ String.intercalate ", " (quotedFields fields) ++ "\x7d"

def quotedItems : List Value → List String
  | [] => []
  | item :: rest => quoted item :: quotedItems rest

def quotedFields : List (String × Value) → List String
  | [] => []
  | (name, value) :: rest =>
      (Quoted.quote name ++ ": " ++ quoted value) :: quotedFields rest

end

/-- The value as running text: a text stands for itself. -/
def shown : Value → String
  | text value => value
  | other => other.quoted

def isNull : Value → Bool
  | null => true
  | _ => false

/-- Whether the value counts as present in a condition. -/
def isTruthy : Value → Bool
  | null => false
  | truth value => value
  | number value => !value.same (.integer 0)
  | text value => !value.isEmpty
  | list items => !items.isEmpty
  | record fields => !fields.isEmpty

/-- The number a value counts as; a truth value counts as one or zero. -/
def number? : Value → Option Number
  | truth value => some (.integer (if value then 1 else 0))
  | number value => some value
  | _ => none

/-- Whether the value is a number that is finite; truth values are not
numbers here. -/
def isFiniteNumber : Value → Except Fault Bool
  | number value => value.isFinite
  | _ => .ok false

def length : Value → Except Fault Nat
  | text value => .ok value.length
  | list items => .ok items.length
  | record fields => .ok fields.length
  | other => .error (.noLength other.typeName)

/-- The elements of a sequence: the items of a list, the characters of a text,
the names of a record. -/
def elements : Value → Except Fault (List Value)
  | text value => .ok (value.toList.map fun c => text (String.singleton c))
  | list items => .ok items
  | record fields => .ok (fields.map fun field => text field.1)
  | other => .error (.notIterable other.typeName)

/-- The element at the start of a sequence.  A record has no field of number
zero. -/
def first : Value → Except Fault Value
  | text value =>
      match value.toList with
      | [] => .error .indexOutOfRange
      | c :: _ => .ok (text (String.singleton c))
  | list items =>
      match items with
      | [] => .error .indexOutOfRange
      | item :: _ => .ok item
  | record _ => .error (.absentKey "0")
  | other => .error (.notSubscriptable other.typeName)

/-- Values that can be looked up: everything but lists and records. -/
def lookedUp : Value → Except Fault Value
  | list items => .error (.unhashable (list items).typeName)
  | record fields => .error (.unhashable (record fields).typeName)
  | other => .ok other

def isText (value : Value) (expected : String) : Bool :=
  match value with
  | text found => found == expected
  | _ => false

/-- The value as a double; texts are read as numerals. -/
def toReal : Value → Except Fault Float
  | truth value => .ok (if value then 1 else 0)
  | number value => value.toDouble
  | text value => Numeral.real value
  | other => .error (.notAReal other.typeName)

/-- The value as an integer; doubles lose their fraction and texts are read as
numerals. -/
def toInteger : Value → Except Fault Int
  | truth value => .ok (if value then 1 else 0)
  | number value => value.truncate
  | text value => Numeral.integer value
  | other => .error (.notAnInteger other.typeName)

/-- The value as a number of repetitions: only integers and truth values. -/
def toCount : Value → Except Fault Int
  | truth value => .ok (if value then 1 else 0)
  | number (.integer n) => .ok n
  | other => .error (.notACount other.typeName)

/-- The number a value counts as, for changing its sign. -/
def toSigned (value : Value) : Except Fault Number :=
  match value.number? with
  | some n => .ok n
  | none => .error (.badNegation value.typeName)

end Value

/-- A field of a record. -/
abbrev Fields := List (String × Value)

namespace Fields

/-- A repeated name keeps its place and takes the new value. -/
def put (fields : Fields) (name : String) (value : Value) : Fields :=
  if fields.any (·.1 == name) then
    fields.map fun field => if field.1 == name then (name, value) else field
  else
    fields ++ [(name, value)]

def ofPairs (pairs : List (String × Value)) : Fields :=
  pairs.foldl (fun fields pair => put fields pair.1 pair.2) []

def get? (fields : Fields) (name : String) : Option Value :=
  List.lookup name fields

/-- The value of a field, or a default when there is no such field. -/
def getOr (fields : Fields) (name : String) (default : Value) : Value :=
  (fields.get? name).getD default

end Fields

end OptimalPlans
