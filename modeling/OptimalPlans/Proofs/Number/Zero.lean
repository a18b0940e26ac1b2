import OptimalPlans.Proofs.Faults
import OptimalPlans.Proofs.Number.Negation
import OptimalPlans.Plane.Solution

/-!
# Zero divisors

A double equal to zero has no exact value but zero, whichever its sign.  Its magnitude is
below every positive tolerance and it counts as zero in an exact comparison, so a divisor
that has been tested either way is not zero and the division only fails where numbers do
not fit.
-/

open Float.Model (Format UnpackedFloat)
open Float.Model.UnpackedFloat

namespace OptimalPlans

namespace Double

theorem zero_of_compare {value : UnpackedFloat} {sign : Sign}
    (equal : value.compare (.zero sign) = some .eq) : ∃ held, value = .zero held := by
  cases value with
  | infinity held => cases held <;> simp [UnpackedFloat.compare] at equal
  | notANumber => simp [UnpackedFloat.compare] at equal
  | zero held => exact ⟨held, rfl⟩
  | finite held mantissa exponent positive =>
      cases held <;> simp [UnpackedFloat.compare] at equal

theorem unpack_zero : (0 : Float).toModel.unpack = .zero .positive := by
  have bits : (0 : Float).toModel.toBits.toBitVec = 0#64 := by decide +kernel
  rw [Float.Model.unpack, bits]
  rfl

theorem unpack_of_beq_zero {x : Float} (zero : (x == 0) = true) :
    ∃ sign, x.toModel.unpack = .zero sign := by
  have equal : x.toModel.unpack.beq (0 : Float).toModel.unpack = true := zero
  rw [unpack_zero, UnpackedFloat.beq, beq_iff_eq] at equal
  exact zero_of_compare equal

/-- A double equal to zero has neither a significand nor an exponent. -/
theorem shape_of_beq_zero {x : Float} (zero : (x == 0) = true) :
    ∃ negative, shape x = .finite negative 0 (-1074) := by
  obtain ⟨sign, unpacked⟩ := unpack_of_beq_zero zero
  have exponent := toNat_unpackExponent x.toBits.toBitVec
  have mantissa := toNat_unpackMantissa x.toBits.toBitVec
  have fields : (@unpackExponent Format.binary64 x.toBits.toBitVec).toNat = 0 ∧
      (@unpackMantissa Format.binary64 x.toBits.toBitVec).toNat = 0 := by
    change unpack Format.binary64 x.toBits.toBitVec = _ at unpacked
    unfold unpack at unpacked
    dsimp only at unpacked
    split at unpacked
    · split at unpacked <;> cases unpacked
    · split at unpacked
      next none =>
          split at unpacked
          next noFraction => exact ⟨by rw [none]; rfl, by rw [noFraction]; rfl⟩
          next => cases unpacked
      next => cases unpacked
  rw [exponent, mantissa] at fields
  have middle : powerOfTwo 52 = 2 ^ 52 := rfl
  have width : powerOfTwo 11 = 2 ^ 11 := rfl
  refine ⟨x.toBits.toNat / powerOfTwo 63 == 1, ?_⟩
  unfold shape
  simp only [middle, width]
  rw [show x.toBits.toNat / 2 ^ 52 % 2 ^ 11 = 0 from fields.1,
    show x.toBits.toNat % 2 ^ 52 = 0 from fields.2]
  simp

theorem compareInt_of_beq_zero {x : Float} (zero : (x == 0) = true) :
    compareInt 0 x = some .eq := by
  obtain ⟨negative, known⟩ := shape_of_beq_zero zero
  cases negative <;> simp [compareInt, known]

theorem abs_of_beq_zero {x : Float} (zero : (x == 0) = true) : x.abs = 0 := by
  obtain ⟨sign, unpacked⟩ := unpack_of_beq_zero zero
  have absolute : x.abs = .ofModel (.pack x.toModel.unpack.abs) := rfl
  rw [absolute, unpacked, UnpackedFloat.abs]
  decide +kernel

end Double

namespace Number

/-- A double is not zero where its magnitude is not below one billionth. -/
theorem beq_zero_of_abs_less {x : Float}
    (apart : (double x).abs.less Plane.defaultTolerance = false) : (x == 0) = false := by
  refine Bool.eq_false_iff.mpr fun zero => ?_
  have below : (double 0).less Plane.defaultTolerance = true := by decide +kernel
  rw [abs, Double.abs_of_beq_zero zero, below] at apart
  cases apart

/-- A double is not zero where it is not the same as zero. -/
theorem beq_zero_of_isZero {x : Float} (some : Scalar.isZero (double x) = false) :
    (x == 0) = false := by
  refine Bool.eq_false_iff.mpr fun zero => ?_
  have same : Scalar.isZero (double x) = (Double.compareInt 0 x == .some .eq) := rfl
  rw [same, Double.compareInt_of_beq_zero zero] at some
  cases some

theorem div_double (dividend : Float) {divisor : Float} (some : (divisor == 0) = false) :
    (double dividend).div (double divisor) = .ok (double (dividend / divisor)) := by
  have divided : (double dividend).div (double divisor) =
      if divisor == 0 then .error .realDivisionByZero else .ok (double (dividend / divisor)) := rfl
  rw [divided, some]
  rfl

end Number

end OptimalPlans
