import OptimalPlans.Number.Power

/-!
# Double-precision numbers

The exact value of a double, and the double nearest to an exact value.  `shape`
reads a double as a sign, a whole significand and a power of two; `ofRatio`
rounds a quotient of natural numbers to nearest, a half to the even neighbour.
Comparison with an integer goes through the exact value, so no digit is lost.
-/

namespace OptimalPlans.Double

/-- What a double stands for: `significand * 2 ^ exponent` with a sign, an
infinity, or no number at all. -/
inductive Shape where
  | finite (negative : Bool) (significand : Nat) (exponent : Int)
  | infinite (negative : Bool)
  | nan
deriving DecidableEq, Repr

def shape (x : Float) : Shape :=
  let bits : Nat := x.toBits.toNat
  let negative := bits / powerOfTwo 63 == 1
  let field : Nat := bits / powerOfTwo 52 % powerOfTwo 11
  let fraction : Nat := bits % powerOfTwo 52
  if field = 2047 then
    if fraction = 0 then .infinite negative else .nan
  else if field = 0 then
    .finite negative fraction (-1074)
  else
    .finite negative (powerOfTwo 52 + fraction) ((field : Int) - 1075)

def isFinite (x : Float) : Bool :=
  match shape x with
  | .finite _ _ _ => true
  | _ => false

def isNaN (x : Float) : Bool :=
  match shape x with
  | .nan => true
  | _ => false

def infinity : Float := Float.ofBits 0x7FF0000000000000

/-- The double `significand * 2 ^ exponent`, for a significand of at most 53
bits (or `2 ^ 53` itself) and an exponent of at least -1074; infinite when that
is beyond the largest double. -/
def encode (negative : Bool) (significand : Nat) (exponent : Int) : Float :=
  let sign := if negative then powerOfTwo 63 else 0
  let magnitude := (exponent + 1074).toNat * powerOfTwo 52 + significand
  let beyond := 2047 * powerOfTwo 52
  let magnitude := if magnitude < beyond then magnitude else beyond
  Float.ofBits (UInt64.ofNat (sign + magnitude))

/-- The quotient rounded to a whole number, a half to the even neighbour. -/
def roundHalfEven (numerator denominator : Nat) : Nat :=
  let quotient := numerator / denominator
  let remainder := numerator % denominator
  if 2 * remainder < denominator then quotient
  else if denominator < 2 * remainder then quotient + 1
  else quotient + quotient % 2

/-- `numerator / denominator` counted in units of `2 ^ exponent`. -/
def scale (numerator denominator : Nat) (exponent : Int) : Nat × Nat :=
  if exponent < 0 then
    (numerator * powerOfTwo (-exponent).toNat, denominator)
  else
    (numerator, denominator * powerOfTwo exponent.toNat)

/-- The double nearest to `numerator / denominator`. -/
def ofRatio (negative : Bool) (numerator denominator : Nat) : Float :=
  if numerator = 0 then
    encode negative 0 (-1074)
  else
    let guess : Int := max (-1074) ((numerator.log2 : Int) - denominator.log2 - 53)
    let (n, d) := scale numerator denominator guess
    let exponent := if n / d < powerOfTwo 53 then guess else guess + 1
    let (n, d) := scale numerator denominator exponent
    encode negative (roundHalfEven n d) exponent

def ofInt (n : Int) : Float :=
  ofRatio (n < 0) n.natAbs 1

/-- The least magnitude that rounds to infinity, half a unit past the largest
double. -/
def firstBeyond : Nat :=
  (powerOfTwo 54 - 1) * powerOfTwo 970

/-- Whether an integer rounds to a finite double. -/
def fits (n : Int) : Bool :=
  n.natAbs < firstBeyond

/-- The double nearest to `digits * 10 ^ exponent`.  Magnitudes far outside the
range of doubles are settled without building the power. -/
def ofDecimal (negative : Bool) (digits : Nat) (exponent : Int) : Float :=
  let atLeast : Int := (digits.log2 * 3 / 10 : Nat) + exponent
  let below : Int := (digits.log2 / 3 + 1 : Nat) + exponent
  if digits = 0 ∨ below < -330 then encode negative 0 (-1074)
  else if 310 < atLeast then encode negative (powerOfTwo 53) 971
  else if exponent < 0 then
    ofRatio negative digits (powerOfTen (-exponent).toNat)
  else
    ofRatio negative (digits * powerOfTen exponent.toNat) 1

/-- The order between an integer and a double, decided on exact values; `none`
beside a value that is no number. -/
def compareInt (n : Int) (x : Float) : Option Ordering :=
  match shape x with
  | .nan => none
  | .infinite negative => some (if negative then .gt else .lt)
  | .finite negative significand exponent =>
      let signed : Int := if negative then -significand else significand
      if exponent < 0 then
        some (compare (n * powerOfTwo (-exponent).toNat) signed)
      else
        some (compare n (signed * powerOfTwo exponent.toNat))

/-- The integer part, dropped toward zero; `none` for what is not finite. -/
def truncate (x : Float) : Option Int :=
  match shape x with
  | .finite negative significand exponent =>
      let magnitude : Nat :=
        if exponent < 0 then significand / powerOfTwo (-exponent).toNat
        else significand * powerOfTwo exponent.toNat
      some (if negative then -(magnitude : Int) else magnitude)
  | _ => none

/-- The least integer that is not below a finite double. -/
def ceiling (x : Float) : Option Int :=
  match shape x with
  | .finite negative significand exponent =>
      let signed : Int := if negative then -significand else significand
      if exponent < 0 then
        some (-(-signed / powerOfTwo (-exponent).toNat))
      else
        some (signed * powerOfTwo exponent.toNat)
  | _ => none

end OptimalPlans.Double
