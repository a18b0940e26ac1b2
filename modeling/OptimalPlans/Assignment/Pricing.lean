/-!
# Prices and slacks

The arithmetic of the matching search.  Prices are what rows and columns pay;
a slack is the gap between a cost and the two prices, or stands for a column that
no row has reached.  Doubles reach nothing at infinity and let a value that is no
number come first; exact rationals keep the two cases apart.
-/

namespace OptimalPlans.Assignment

class Pricing (κ : Type) (σ : outParam Type) where
  zero : κ
  add : κ → κ → κ
  sub : κ → κ → κ
  /-- The slack of a column that no row has reached. -/
  unreached : σ
  /-- A gap as a slack. -/
  reached : κ → σ
  /-- Whether a slack is strictly smaller than another. -/
  closer : σ → σ → Bool
  /-- Whether a slack comes before the one chosen so far. -/
  leads : σ → σ → Bool
  /-- A slack after the prices have moved by an amount. -/
  lower : σ → κ → σ
  /-- The amount by which prices move to close a slack. -/
  amount : σ → κ

instance : Pricing Float Float where
  zero := 0
  add := (· + ·)
  sub := (· - ·)
  unreached := 1 / 0
  reached x := x
  closer x y := x < y
  leads x best := x < best || (x.isNaN && !best.isNaN)
  lower x step := x - step
  amount x := x

instance : Pricing Rat (Option Rat) where
  zero := 0
  add := (· + ·)
  sub := (· - ·)
  unreached := none
  reached := some
  closer
    | some x, some y => x < y
    | some _, none => true
    | none, _ => false
  leads
    | some x, some y => x < y
    | some _, none => true
    | none, _ => false
  lower slack step := slack.map (· - step)
  amount slack := slack.getD 0

end OptimalPlans.Assignment
