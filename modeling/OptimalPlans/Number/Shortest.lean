import OptimalPlans.Number.Double

/-!
# Shortest digits

The fewest decimal digits that read back as a given double, and of those the
ones nearest to it.  A double stands for an interval of reals that round to it;
for one digit, two digits and so on, the two neighbours of the double on that
decimal grid are tested against the interval in exact arithmetic.
-/

namespace OptimalPlans.Shortest

/-- A positive decimal: `digits * 10 ^ exponent`. -/
structure Decimal where
  digits : Nat
  exponent : Int
deriving DecidableEq, Repr

/-- The reals that round to `significand * 2 ^ exponent`, four times as large:
their two ends, the double itself, and whether the ends belong. -/
structure Interval where
  low : Nat
  value : Nat
  high : Nat
  closed : Bool

def Interval.around (significand : Nat) (exponent : Int) : Interval where
  low :=
    if significand = powerOfTwo 52 ∧ -1074 < exponent then 4 * significand - 1
    else 4 * significand - 2
  value := 4 * significand
  high := 4 * significand + 2
  closed := significand % 2 == 0

def Interval.contains (interval : Interval) (scaling point : Nat) : Bool :=
  if interval.closed then
    interval.low * scaling ≤ point && point ≤ interval.high * scaling
  else
    interval.low * scaling < point && point < interval.high * scaling

/-- The number of decimal digits of a natural number. -/
def digitCount (n : Nat) : Nat :=
  (Nat.toDigits 10 n).length

/-- The place `p` with `10 ^ (p - 1) ≤ significand * 2 ^ exponent < 10 ^ p`. -/
def leadingPlace (significand : Nat) (exponent : Int) : Int :=
  let lifted :=
    if exponent < 0 then significand * powerOfTen 330 / powerOfTwo (-exponent).toNat
    else significand * powerOfTwo exponent.toNat * powerOfTen 330
  (digitCount lifted : Int) - 330

/-- The better of the two neighbours on the grid of `10 ^ place` that lie in the
interval, if any does; a tie goes to the even one. -/
def onGrid? (interval : Interval) (exponent place : Int) : Option Nat :=
  let quarter := exponent - 2
  let scaling :=
    (if quarter < 0 then 1 else powerOfTwo quarter.toNat) *
      (if place < 0 then powerOfTen (-place).toNat else 1)
  let unit :=
    (if quarter < 0 then powerOfTwo (-quarter).toNat else 1) *
      (if place < 0 then 1 else powerOfTen place.toNat)
  let value := interval.value * scaling
  let below := value / unit
  let above := below + 1
  let fitsBelow := below != 0 && interval.contains scaling (below * unit)
  let fitsAbove := interval.contains scaling (above * unit)
  if fitsBelow && fitsAbove then
    let down := value - below * unit
    let up := above * unit - value
    if down < up || (down == up && below % 2 == 0) then some below else some above
  else if fitsBelow then some below
  else if fitsAbove then some above
  else none

/-- Drops the zeros at the end. -/
def strip : Nat → Nat → Int → Decimal
  | 0, digits, exponent => ⟨digits, exponent⟩
  | count + 1, digits, exponent =>
      if digits % 10 = 0 ∧ digits ≠ 0 then strip count (digits / 10) (exponent + 1)
      else ⟨digits, exponent⟩

/-- Tries grids of more and more digits; seventeen always suffice. -/
def search (interval : Interval) (exponent leading : Int) : Nat → Nat → Decimal
  | 0, _ => ⟨0, 0⟩
  | tries + 1, count =>
      let place := leading - count
      match onGrid? interval exponent place with
      | some digits => strip 400 digits place
      | none => search interval exponent leading tries (count + 1)

/-- The shortest decimal of the positive double `significand * 2 ^ exponent`. -/
def decimal (significand : Nat) (exponent : Int) : Decimal :=
  search (Interval.around significand exponent) exponent
    (leadingPlace significand exponent) 20 1

end OptimalPlans.Shortest
