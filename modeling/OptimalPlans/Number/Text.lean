import OptimalPlans.Number.Basic
import OptimalPlans.Number.Shortest

/-!
# The text of numbers

Integers are written in decimal.  Doubles are written with their shortest
digits: positionally while the leading digit stands between the fourth place
after the point and the sixteenth before it, and with an exponent otherwise.
-/

namespace OptimalPlans

/-- The decisions of a notation for doubles. -/
structure Notation where
  /-- The smallest decimal exponent that is still written positionally. -/
  least : Int
  /-- The first decimal exponent that is not written positionally any more. -/
  limit : Int
  exponentDigits : Nat
  infinity : String
  notANumber : String

/-- The notation of messages and shown values. -/
def Notation.shown : Notation where
  least := -4
  limit := 16
  exponentDigits := 2
  infinity := "inf"
  notANumber := "nan"

/-- The notation of JSON documents differs in the values JSON has no numeral
for. -/
def Notation.json : Notation :=
  { Notation.shown with infinity := "Infinity", notANumber := "NaN" }

namespace Notation

def zeros (count : Nat) : List Char :=
  List.replicate count '0'

/-- A decimal in positional notation, with at least one digit after the point. -/
def positional (decimal : Shortest.Decimal) : List Char :=
  let digits := Nat.toDigits 10 decimal.digits
  let point : Int := digits.length + decimal.exponent
  if 0 ≤ decimal.exponent then
    digits ++ zeros decimal.exponent.toNat ++ ['.', '0']
  else if 0 < point then
    digits.take point.toNat ++ '.' :: digits.drop point.toNat
  else
    '0' :: '.' :: zeros (-point).toNat ++ digits

/-- A decimal with one digit before the point and a signed exponent. -/
def scientific (form : Notation) (decimal : Shortest.Decimal) : List Char :=
  let digits := Nat.toDigits 10 decimal.digits
  let exponent : Int := digits.length + decimal.exponent - 1
  let mantissa :=
    match digits with
    | [] => []
    | [digit] => [digit]
    | digit :: rest => digit :: '.' :: rest
  let places := Nat.toDigits 10 exponent.natAbs
  mantissa ++ 'e' :: (if exponent < 0 then '-' else '+') ::
    zeros (form.exponentDigits - places.length) ++ places

def magnitude (form : Notation) (decimal : Shortest.Decimal) : List Char :=
  let exponent : Int :=
    (Shortest.digitCount decimal.digits : Int) + decimal.exponent - 1
  if form.least ≤ exponent ∧ exponent < form.limit then positional decimal
  else form.scientific decimal

def write (form : Notation) (x : Float) : String :=
  match Double.shape x with
  | .nan => form.notANumber
  | .infinite negative => (if negative then "-" else "") ++ form.infinity
  | .finite negative significand exponent =>
      (if negative then "-" else "") ++
        (if significand = 0 then "0.0"
        else String.ofList (form.magnitude (Shortest.decimal significand exponent)))

end Notation

/-- The text of a number in a notation. -/
def Number.write (form : Notation) : Number → String
  | integer n => toString n
  | double x => form.write x

/-- The text of a number in messages. -/
def Number.text : Number → String :=
  Number.write .shown

end OptimalPlans
