import OptimalPlans.Fault
import OptimalPlans.Number.Double

/-!
# Numbers

A number is an exact integer or a double, and keeps which of the two it is.
Integers compute exactly; as soon as a double takes part the integer beside it
is rounded to a double, which fails when it does not fit.  Comparisons are exact
whatever the mixture.
-/

namespace OptimalPlans

inductive Number where
  | integer (value : Int)
  | double (value : Float)

namespace Number

/-- The number as a double; an integer has to be within range. -/
def toDouble : Number → Except Fault Float
  | integer n =>
      if Double.fits n then .ok (Double.ofInt n) else .error .integerTooLarge
  | double x => .ok x

/-- Applies `whole` to two integers and `real` as soon as a double takes part. -/
def combine (whole : Int → Int → Int) (real : Float → Float → Float) :
    Number → Number → Except Fault Number
  | integer a, integer b => .ok (integer (whole a b))
  | left, right => do
      let x ← left.toDouble
      let y ← right.toDouble
      return double (real x y)

def add : Number → Number → Except Fault Number :=
  combine (· + ·) (· + ·)

def sub : Number → Number → Except Fault Number :=
  combine (· - ·) (· - ·)

def mul : Number → Number → Except Fault Number :=
  combine (· * ·) (· * ·)

/-- The quotient as a double, rounded once from the exact operands. -/
def div : Number → Number → Except Fault Number
  | integer a, integer b =>
      if b = 0 then .error .integerDivisionByZero
      else
        let x := Double.ofRatio ((a < 0) != (b < 0)) a.natAbs b.natAbs
        if Double.isFinite x then .ok (double x) else .error .quotientTooLarge
  | left, right => do
      let x ← left.toDouble
      let y ← right.toDouble
      if y == 0 then .error .realDivisionByZero else return double (x / y)

def neg : Number → Number
  | integer n => integer (-n)
  | double x => double (-x)

def abs : Number → Number
  | integer n => integer n.natAbs
  | double x => double x.abs

def less : Number → Number → Bool
  | integer a, integer b => a < b
  | double x, double y => x < y
  | integer a, double y => Double.compareInt a y == some .lt
  | double x, integer b => Double.compareInt b x == some .gt

def lessEq : Number → Number → Bool
  | integer a, integer b => a ≤ b
  | double x, double y => x ≤ y
  | integer a, double y =>
      Double.compareInt a y == some .lt || Double.compareInt a y == some .eq
  | double x, integer b =>
      Double.compareInt b x == some .gt || Double.compareInt b x == some .eq

def same : Number → Number → Bool
  | integer a, integer b => a == b
  | double x, double y => x == y
  | integer a, double y => Double.compareInt a y == some .eq
  | double x, integer b => Double.compareInt b x == some .eq

/-- Whether the number is less than infinity, as every integer is. -/
def isBounded : Number → Bool
  | integer _ => true
  | double x => x < Double.infinity

/-- Whether the number is finite.  An integer too large for a double has no
answer. -/
def isFinite : Number → Except Fault Bool
  | integer n => if Double.fits n then .ok true else .error .integerTooLarge
  | double x => .ok (Double.isFinite x)

/-- The integer part, dropped toward zero. -/
def truncate : Number → Except Fault Int
  | integer n => .ok n
  | double x =>
      match Double.truncate x with
      | some n => .ok n
      | none => .error (if Double.isNaN x then .nanToInteger else .infinityToInteger)

end Number

end OptimalPlans
