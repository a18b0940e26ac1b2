/-!
# Powers

The powers of two and of ten that scale significands and digits.  A power of two is
a shifted bit, and the power of ten names the operation it uses, so that both are
evaluated on numerals.
-/

namespace OptimalPlans

def powerOfTwo (exponent : Nat) : Nat :=
  1 <<< exponent

def powerOfTen (exponent : Nat) : Nat :=
  @HPow.hPow Nat Nat Nat (@instHPow Nat Nat instPowNat) 10 exponent

theorem powerOfTwo_eq (exponent : Nat) : powerOfTwo exponent = Nat.pow 2 exponent :=
  Nat.one_shiftLeft exponent

theorem powerOfTwo_succ (exponent : Nat) :
    powerOfTwo (exponent + 1) = powerOfTwo exponent * 2 := by
  rw [powerOfTwo_eq, powerOfTwo_eq]
  rfl

theorem powerOfTen_succ (exponent : Nat) :
    powerOfTen (exponent + 1) = powerOfTen exponent * 10 := rfl

theorem powerOfTwo_pos (exponent : Nat) : 0 < powerOfTwo exponent := by
  rw [powerOfTwo_eq]
  exact Nat.pow_pos (by decide)

theorem powerOfTen_pos (exponent : Nat) : 0 < powerOfTen exponent :=
  Nat.pow_pos (by decide)

end OptimalPlans
