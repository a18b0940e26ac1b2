import OptimalPlans.Scalar
import OptimalPlans.Value.Basic

/-!
# Arithmetic on values

Values as scalars.  Numbers compute as numbers, texts and lists can be joined and
ordered, and every other combination is a fault that names the operation and the
types.
-/

namespace OptimalPlans.Value

/-- Two numbers combined, or the fault of the operation. -/
def arithmetic (operation : String) (compute : Number → Number → Except Fault Number)
    (left right : Value) : Except Fault Value :=
  match left.number?, right.number? with
  | some a, some b => (compute a b).map number
  | _, _ => .error (.badOperands operation left.typeName right.typeName)

def add : Value → Value → Except Fault Value
  | text a, text b => .ok (text (a ++ b))
  | list a, list b => .ok (list (a ++ b))
  | text _, other => .error (.cannotJoin "str" other.typeName)
  | list _, other => .error (.cannotJoin "list" other.typeName)
  | left, right => arithmetic "+" Number.add left right

/-- A sequence repeated as often as an integer says. -/
def repeated (sequence count : Value) : Except Fault Value :=
  match sequence, count.toCount with
  | text value, .ok n => .ok (text (String.join (List.replicate n.toNat value)))
  | list items, .ok n => .ok (list (List.replicate n.toNat items).flatten)
  | _, _ => .error (.cannotRepeat count.typeName)

def mul : Value → Value → Except Fault Value
  | text a, other => repeated (text a) other
  | list a, other => repeated (list a) other
  | other, text a => repeated (text a) other
  | other, list a => repeated (list a) other
  | left, right => arithmetic "*" Number.mul left right

mutual

/-- Equality of values: numbers by their value, whatever their kind. -/
def same : Value → Value → Bool
  | null, null => true
  | text a, text b => a == b
  | list a, list b => sameItems a b
  | record a, record b => a.length == b.length && sameFields a b
  | truth a, right =>
      match right.number? with
      | some y => (Number.integer (if a then 1 else 0)).same y
      | none => false
  | number x, right =>
      match right.number? with
      | some y => x.same y
      | none => false
  | _, _ => false

def sameItems : List Value → List Value → Bool
  | [], [] => true
  | a :: as, b :: bs => same a b && sameItems as bs
  | _, _ => false

/-- Every field on the left has an equal one on the right. -/
def sameFields : Fields → Fields → Bool
  | [], _ => true
  | (name, value) :: rest, right =>
      (match Fields.get? right name with
      | some other => same value other
      | none => false) && sameFields rest right

end

/-- An order on values: numbers by value, texts by code point; sequences of
other values have no order here. -/
def order (operation : String) (numbers : Number → Number → Bool)
    (texts : String → String → Bool) (left right : Value) : Except Fault Bool :=
  match left, right with
  | text a, text b => .ok (texts a b)
  | _, _ =>
      match left.number?, right.number? with
      | some a, some b => .ok (numbers a b)
      | _, _ => .error (.badComparison operation left.typeName right.typeName)

def less : Value → Value → Except Fault Bool :=
  order "<" Number.less fun a b => decide (a < b)

def lessEq : Value → Value → Except Fault Bool :=
  order "<=" Number.lessEq fun a b => !decide (b < a)

def greater : Value → Value → Except Fault Bool :=
  order ">" (fun a b => b.less a) fun a b => decide (b < a)

def greaterEq : Value → Value → Except Fault Bool :=
  order ">=" (fun a b => b.lessEq a) fun a b => !decide (a < b)

def neg (value : Value) : Except Fault Value :=
  match value.number? with
  | some n => .ok (number n.neg)
  | none => .error (.badNegation value.typeName)

def abs (value : Value) : Except Fault Value :=
  match value.number? with
  | some n => .ok (number n.abs)
  | none => .error (.badMagnitude value.typeName)

instance : Scalar Value where
  ofInt := integer
  text := shown
  add := add
  sub := arithmetic "-" Number.sub
  mul := mul
  neg := neg
  abs := abs
  same := same
  less := less
  lessEq := lessEq
  greater := greater
  greaterEq := greaterEq
  bounded value := less value (double Double.infinity)

end OptimalPlans.Value
