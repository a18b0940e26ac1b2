import OptimalPlans.Proofs.Exactness

/-!
# Negation of numbers

Negating a double that is finite flips its sign bit and nothing else, so its exact value
changes its sign.  An integer is below a negated tolerance of less than one exactly when
it is negative, and its magnitude is within the tolerance exactly when it is zero.
-/

open Float.Model (Format)
open Float.Model.UnpackedFloat

namespace OptimalPlans.Double

/-! ## The fields of a double -/

theorem toNat_unpackMantissa (bits : BitVec 64) :
    (@unpackMantissa Format.binary64 bits).toNat = bits.toNat % 2 ^ 52 := by
  simp [unpackMantissa, BitVec.extractLsb, BitVec.extractLsb'_toNat]

theorem toNat_unpackExponent (bits : BitVec 64) :
    (@unpackExponent Format.binary64 bits).toNat = bits.toNat / 2 ^ 52 % 2 ^ 11 := by
  simp [unpackExponent, BitVec.extractLsb, BitVec.extractLsb'_toNat, Nat.shiftRight_eq_div_pow]

theorem toNat_unpackSign (bits : BitVec 64) :
    (@unpackSign Format.binary64 bits).toNat = bits.toNat / 2 ^ 63 := by
  have := bits.isLt
  simp [unpackSign, BitVec.extractLsb, BitVec.extractLsb'_toNat, Nat.shiftRight_eq_div_pow]
  omega

theorem toNat_packComponents (sign : Sign) (exponent : BitVec 11) (mantissa : BitVec 52) :
    (packComponents Format.binary64 sign exponent mantissa).toNat =
      sign.toBitVec.toNat * 2 ^ 63 + exponent.toNat * 2 ^ 52 + mantissa.toNat := by
  have := mantissa.isLt
  have := exponent.isLt
  simp only [packComponents, BitVec.toNat_append]
  rw [← Nat.shiftLeft_add_eq_or_of_lt (by omega), ← Nat.shiftLeft_add_eq_or_of_lt (by omega)]
  simp [Nat.shiftLeft_eq]
  omega

theorem toNat_toBitVec_neg (bit : BitVec 1) :
    (-(Sign.ofBitVec bit)).toBitVec.toNat = 1 - bit.toNat := by
  revert bit
  decide

theorem toNat_implicit (mantissa : BitVec 52) :
    (1#1 ++ mantissa).toNat = 2 ^ 52 + mantissa.toNat := by
  have short := mantissa.isLt
  rw [BitVec.toNat_append, ← Nat.shiftLeft_add_eq_or_of_lt short]
  rfl

theorem log2_implicit (mantissa : BitVec 52) : (1#1 ++ mantissa).toNat.log2 = 52 := by
  have short := mantissa.isLt
  rw [toNat_implicit, Nat.log2_eq_iff (by omega)]
  omega

theorem toNat_pack_neg (bits : BitVec 64) (finite : bits.toNat / 2 ^ 52 % 2 ^ 11 ≠ 2047) :
    (pack Format.binary64 (unpack Format.binary64 bits).neg).toNat =
      (1 - bits.toNat / 2 ^ 63) * 2 ^ 63 + bits.toNat % 2 ^ 63 := by
  have small := bits.isLt
  have mantissa := toNat_unpackMantissa bits
  have exponent := toNat_unpackExponent bits
  have sign := toNat_toBitVec_neg (@unpackSign Format.binary64 bits)
  rw [toNat_unpackSign] at sign
  have notInfinite : @unpackExponent Format.binary64 bits ≠ -1#_ := by
    intro same
    rw [same] at exponent
    exact finite exponent.symm
  have wide : 2 ^ Format.binary64.exponentBits = 2048 := rfl
  have bias : Format.binary64.exponentBias = 1023 := rfl
  have fraction : Format.binary64.mantissaBitsWithoutImplicit = 52 := rfl
  have digits : Format.binary64.mantissaBits = 53 := rfl
  unfold unpack
  simp only [if_neg notInfinite]
  by_cases subnormal : @unpackExponent Format.binary64 bits = 0#_
  · rw [if_pos subnormal]
    rw [subnormal] at exponent ⊢
    by_cases zero : @unpackMantissa Format.binary64 bits = 0#_
    · rw [dif_pos zero, neg, pack, packedZero, toNat_packComponents, sign]
      rw [zero] at mantissa
      simp at mantissa exponent ⊢
      omega
    · rw [dif_neg zero, neg, pack]
      have short : (@unpackMantissa Format.binary64 bits).toNat < 2 ^ 52 := BitVec.isLt _
      have some : (@unpackMantissa Format.binary64 bits).toNat ≠ 0 := by
        intro none
        exact zero (BitVec.eq_of_toNat_eq none)
      have log : (@unpackMantissa Format.binary64 bits).toNat.log2 < 52 :=
        (Nat.log2_lt some).mpr short
      rw [if_neg (by rw [wide]; simp; omega), if_neg (by rw [digits]; omega),
        toNat_packComponents, sign]
      simp at mantissa exponent ⊢
      omega
  · rw [if_neg subnormal, neg, pack]
    have below : (@unpackExponent Format.binary64 bits).toNat < 2 ^ 11 := BitVec.isLt _
    rw [if_neg (by rw [wide]; omega), if_pos (by rw [digits, log2_implicit]),
      toNat_packComponents, sign, toNat_implicit]
    simp at mantissa exponent ⊢
    omega

/-- Negation flips the sign of a finite double. -/
theorem shape_neg {x : Float} {negative : Bool} {significand : Nat} {exponent : Int}
    (finite : shape x = .finite negative significand exponent) :
    shape (-x) = .finite (!negative) significand exponent := by
  let bits : Nat := x.toBits.toNat
  have small : bits < 2 ^ 64 := x.toBits.toNat_lt
  have top : powerOfTwo 63 = 2 ^ 63 := rfl
  have middle : powerOfTwo 52 = 2 ^ 52 := rfl
  have width : powerOfTwo 11 = 2 ^ 11 := rfl
  unfold shape at finite
  simp only [top, middle, width] at finite
  have ordinary : bits / 2 ^ 52 % 2 ^ 11 ≠ 2047 := by
    intro special
    rw [if_pos special] at finite
    split at finite <;> cases finite
  have negated : (-x).toBits.toNat = (1 - bits / 2 ^ 63) * 2 ^ 63 + bits % 2 ^ 63 :=
    toNat_pack_neg x.toBits.toBitVec ordinary
  have sign : ((-x).toBits.toNat / 2 ^ 63 == 1) = !(bits / 2 ^ 63 == 1) := by
    rw [negated, Bool.eq_iff_iff]
    simp only [beq_iff_eq, Bool.not_eq_true', beq_eq_false_iff_ne]
    omega
  have field : (-x).toBits.toNat / 2 ^ 52 % 2 ^ 11 = bits / 2 ^ 52 % 2 ^ 11 := by omega
  have fraction : (-x).toBits.toNat % 2 ^ 52 = bits % 2 ^ 52 := by omega
  unfold shape
  simp only [top, middle, width, sign, field, fraction]
  rw [if_neg ordinary] at finite ⊢
  by_cases subnormal : bits / 2 ^ 52 % 2 ^ 11 = 0
  · rw [if_pos subnormal] at finite ⊢
    obtain ⟨rfl, rfl, rfl⟩ := Shape.finite.inj finite
    rfl
  · rw [if_neg subnormal] at finite ⊢
    obtain ⟨rfl, rfl, rfl⟩ := Shape.finite.inj finite
    rfl

/-- A double from zero up to one, negated, separates the negative integers. -/
theorem compareInt_neg {x : Float}
    (nonneg : compareInt 0 x = some .lt ∨ compareInt 0 x = some .eq)
    (small : compareInt 1 x = some .gt) (n : Int) :
    compareInt n (-x) = some .lt ↔ n < 0 := by
  unfold compareInt at nonneg small ⊢
  cases known : shape x with
  | nan => simp [known] at small
  | infinite negative => cases negative <;> simp [known] at nonneg small
  | finite negative significand exponent =>
      have flipped : (if (!negative) = true then -(significand : Int) else significand) =
          -(if negative = true then -(significand : Int) else significand) := by
        cases negative <;> simp
      rw [shape_neg known]
      simp only [known, flipped] at nonneg small ⊢
      generalize (if negative = true then -(significand : Int) else significand) = signed
        at nonneg small ⊢
      by_cases fractional : exponent < 0
      · have scale : (0 : Int) < powerOfTwo (-exponent).toNat :=
          Int.natCast_pos.mpr (powerOfTwo_pos _)
        simp only [if_pos fractional, Option.some.injEq, compare_lt_iff_lt,
          compare_eq_iff_eq, compare_gt_iff_gt, zero_mul, one_mul] at nonneg small ⊢
        constructor
        · intro below
          by_contra whole
          have product := mul_nonneg (not_lt.mp whole) scale.le
          omega
        · intro negative
          have product :
              n * powerOfTwo (-exponent).toNat ≤ -1 * powerOfTwo (-exponent).toNat :=
            mul_le_mul_of_nonneg_right (by omega) scale.le
          omega
      · simp only [if_neg fractional, Option.some.injEq, compare_lt_iff_lt,
          compare_eq_iff_eq, compare_gt_iff_gt, neg_mul] at nonneg small ⊢
        omega

/-- An integer is within range together with its negation. -/
theorem fits_neg (n : Int) : fits (-n) = fits n := by
  rw [fits, fits, Int.natAbs_neg]

/-- A double below one is below every positive integer. -/
theorem compareInt_of_small {x : Float} (small : compareInt 1 x = some .gt) {n : Int}
    (positive : 0 < n) : compareInt n x = some .gt := by
  unfold compareInt at small ⊢
  cases known : shape x with
  | nan => simp [known] at small
  | infinite negative => cases negative <;> simp_all
  | finite negative significand exponent =>
      simp only [known] at small ⊢
      generalize (if negative = true then -(significand : Int) else significand) = signed
        at small ⊢
      by_cases fractional : exponent < 0
      · have scale : (0 : Int) < powerOfTwo (-exponent).toNat :=
          Int.natCast_pos.mpr (powerOfTwo_pos _)
        simp only [if_pos fractional, Option.some.injEq, compare_gt_iff_gt, one_mul] at small ⊢
        have product : 1 * (powerOfTwo (-exponent).toNat : Int) ≤
            n * powerOfTwo (-exponent).toNat :=
          mul_le_mul_of_nonneg_right (by omega) scale.le
        omega
      · simp only [if_neg fractional, Option.some.injEq, compare_gt_iff_gt] at small ⊢
        omega

end OptimalPlans.Double

namespace OptimalPlans.Number

/-- A tolerance from zero up to one, negated, separates the negative integers. -/
theorem less_neg_tolerance {tolerance : Number}
    (nonneg : (integer 0).lessEq tolerance = true)
    (small : tolerance.less (integer 1) = true) (n : Int) :
    (integer n).less tolerance.neg = decide (n < 0) := by
  cases tolerance with
  | integer value =>
      have zero : value = 0 := by
        simp only [lessEq, less, decide_eq_true_eq] at nonneg small
        omega
      subst zero
      rfl
  | double x =>
      simp only [lessEq, less, Bool.or_eq_true, beq_iff_eq] at nonneg small
      rw [Bool.eq_iff_iff, neg, less, beq_iff_eq, decide_eq_true_eq]
      exact Double.compareInt_neg nonneg small n

/-- Only zero has a magnitude within a tolerance from zero up to one. -/
theorem abs_lessEq_tolerance {tolerance : Number}
    (nonneg : (integer 0).lessEq tolerance = true)
    (small : tolerance.less (integer 1) = true) (n : Int) :
    (integer n).abs.lessEq tolerance = decide (n = 0) := by
  by_cases zero : n = 0
  · subst zero
    exact nonneg
  · have positive : (0 : Int) < n.natAbs := by omega
    rw [decide_eq_false zero, Bool.eq_false_iff]
    cases tolerance with
    | integer value =>
        simp only [less, decide_eq_true_eq] at small
        simp only [abs, lessEq, ne_eq, decide_eq_true_eq]
        omega
    | double x =>
        simp only [less, beq_iff_eq] at small
        rw [abs, lessEq, Double.compareInt_of_small small positive]
        decide

end OptimalPlans.Number
