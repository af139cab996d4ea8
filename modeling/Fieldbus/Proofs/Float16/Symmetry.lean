import Fieldbus.Proofs.Float16.ClosedForm
import Fieldbus.Proofs.Float16.Quantization
import Fieldbus.Proofs.Float16.Resending

/-! # Opposite values — quantization is odd

    Mantissas reach from -2048 to 2047, so one of them has no opposite, and
    a value can take one exponent less than its opposite does.  The value
    that arrives is the opposite one all the same.

    Within the symmetric part of the range opposite values have opposite
    hundredths (`hundredths_neg`), and division toward zero keeps them
    opposite.  So a quotient fits exactly when its opposite does, unless one
    of the two is -2048.  In that case the other is halved once more, and
    the bit this drops is zero. -/

namespace Fieldbus

namespace Binary32

variable {x y : Binary32} {a : Int}

/-- The other sign gives the opposite number. -/
theorem signed_not (s : Bool) (n : Nat) : signed (!s) n = -signed s n := by
  cases s with
  | false => rfl
  | true => exact (Int.neg_neg _).symm

/-- Opposite numbers have opposite places. -/
theorem position?_neg (hx : x.position? = some a) :
    (-x).position? = some (-a) := by
  cases x with
  | nan => exact nomatch hx
  | infinity s =>
      have place : signed s limitUnits = a := Option.some.inj hx
      show some (signed (!s) limitUnits) = _
      rw [signed_not, place]
  | finite s magnitude =>
      have place : signed s magnitude.units = a := Option.some.inj hx
      show some (signed (!s) magnitude.units) = _
      rw [signed_not, place]

/-- The opposite of the opposite is the number. -/
theorem neg_neg (x : Binary32) : - -x = x := by
  cases x with
  | nan => rfl
  | infinity s => exact congrArg infinity (Bool.not_not s)
  | finite s magnitude =>
      exact congrArg (finite · magnitude) (Bool.not_not s)

/-- Opposite numbers are in the opposite order. -/
theorem neg_le_neg (le : x ≤ y) : -y ≤ -x := by
  obtain ⟨a, b, hx, hy, places⟩ := position_of_le le
  exact (le_iff_of_position (position?_neg hy) (position?_neg hx)).mpr
    (Int.neg_le_neg places)

end Binary32

open Binary32

namespace Float16

variable {value : Binary32}

/-! ## Opposite hundredths -/

/-- Opposite values have opposite hundredths. -/
theorem hundredths_neg (least : -maxValue ≤ value)
    (most : value ≤ maxValue) :
    hundredths (-value) = -hundredths value := by
  -- the range reaches further down than up
  have covered : minValue ≤ -maxValue := by decide +kernel
  have above := Binary32.le_trans covered least
  have above' := Binary32.le_trans covered (Binary32.neg_le_neg most)
  have below' : -value ≤ maxValue := by
    rw [← Binary32.neg_neg maxValue]
    exact Binary32.neg_le_neg least
  cases value with
  | nan => exact absurd most (by decide +kernel)
  | infinity negative =>
      cases negative with
      | false => exact absurd most (by decide +kernel)
      | true => exact absurd above (by decide +kernel)
  | finite negative magnitude =>
      rw [hundredths_finite above most,
        show -finite negative magnitude = finite (!negative) magnitude by rfl,
        hundredths_finite above' below', signed_not]

/-! ## Opposite quotients -/

/-- Floats of one exponent with opposite mantissas. -/
def Mirrors (a b : Float16) : Prop :=
  a.exponent = b.exponent ∧ a.signedMantissa = -b.signedMantissa

/-- A float with the mantissa that has no opposite, and the float that holds
    the opposite count at the next exponent. -/
def Carries (low high : Float16) : Prop :=
  low.signedMantissa = -2048 ∧ high.signedMantissa = 1024
    ∧ high.exponent.val = low.exponent.val + 1

variable {u v : Binary32}

/-- Quotients of opposite hundredths are opposite. -/
theorem tdiv_of_opposite (opposite : hundredths v = -hundredths u) (e : Nat) :
    (hundredths v).tdiv ((1 : Int) <<< e)
      = -(hundredths u).tdiv ((1 : Int) <<< e) := by
  rw [opposite, Int.neg_tdiv]

/-- A mantissa with an opposite leaves room for it at the same exponent. -/
theorem exponent_le_of_opposite (opposite : hundredths v = -hundredths u)
    (has : (encode u).signedMantissa ≠ -2048) :
    (encode v).exponent.val ≤ (encode u).exponent.val := by
  have fits := fits_signedMantissa (encode u)
  rw [exponent_encode_le_iff, tdiv_of_opposite opposite,
    ← signedMantissa_encode_eq_tdiv]
  simp only [Fits, minMantissa, maxMantissa] at fits ⊢
  omega

/-- Where both mantissas have an opposite, they are opposite. -/
theorem mirrors_of_opposite (opposite : hundredths v = -hundredths u)
    (has_u : (encode u).signedMantissa ≠ -2048)
    (has_v : (encode v).signedMantissa ≠ -2048) :
    Mirrors (encode v) (encode u) := by
  have back : hundredths u = -hundredths v := by
    rw [opposite, Int.neg_neg]
  have exponents : (encode v).exponent = (encode u).exponent :=
    Fin.ext (Nat.le_antisymm (exponent_le_of_opposite opposite has_u)
      (exponent_le_of_opposite back has_v))
  refine ⟨exponents, ?_⟩
  rw [signedMantissa_encode_eq_tdiv, exponents, tdiv_of_opposite opposite,
    ← signedMantissa_encode_eq_tdiv]

/-- Where a mantissa has no opposite, the other is half of that, one
    exponent up. -/
theorem carries_of_opposite (opposite : hundredths v = -hundredths u)
    (lacks : (encode u).signedMantissa = -2048) :
    Carries (encode u) (encode v) := by
  have quotient : (hundredths v).tdiv
      ((1 : Int) <<< (encode u).exponent.val) = 2048 := by
    rw [tdiv_of_opposite opposite, ← signedMantissa_encode_eq_tdiv, lacks]
    rfl
  have halved : (hundredths v).tdiv
      ((1 : Int) <<< ((encode u).exponent.val + 1)) = 1024 := by
    rw [Int.shiftLeft_succ, ← tdiv_tdiv _ (one_shiftLeft_nonneg _), quotient]
    rfl
  have exponent : (encode v).exponent.val = (encode u).exponent.val + 1 := by
    refine Nat.le_antisymm ?_ (Nat.lt_of_not_le ?_)
    · rw [exponent_encode_le_iff, halved]
      decide
    · rw [exponent_encode_le_iff, quotient]
      decide
  refine ⟨lacks, ?_, exponent⟩
  rw [signedMantissa_encode_eq_tdiv, exponent, halved]

/-! ## Opposite values -/

variable {a b : Float16}

/-- Mirrored floats stand for opposite counts. -/
theorem Mirrors.count_eq (mirrors : Mirrors a b) : a.count = -b.count := by
  obtain ⟨exponents, mantissas⟩ := mirrors
  rw [count, count, exponents, mantissas, Int.shiftLeft_eq, Int.shiftLeft_eq,
    Int.neg_mul]

/-- So do floats of which one carries the other. -/
theorem Carries.count_eq (carries : Carries a b) : b.count = -a.count := by
  obtain ⟨low, high, exponents⟩ := carries
  rw [count, count, low, high, exponents, Int.shiftLeft_succ,
    Int.shiftLeft_eq, Int.shiftLeft_eq]
  omega

/-- Opposite counts have opposite values, up to the sign of zero. -/
theorem numEq_ofCount_neg {n : Int} (bounded : n.natAbs ≤ 0x4000000) :
    (ofCount (-n)).numEq (-ofCount n) = true := by
  have bounded' : (-n).natAbs ≤ 0x4000000 := by
    rw [Int.natAbs_neg]
    exact bounded
  rw [numEq_iff_of_position (position?_ofCount bounded')
    (position?_neg (position?_ofCount bounded)), Int.natAbs_neg]
  by_cases zero : n = 0
  · rw [zero, Int.natAbs_zero, hundredthUnits_zero]
    rfl
  · have other : decide (-n < 0) = !decide (n < 0) := by
      rw [← decide_not, decide_eq_decide]
      omega
    rw [other, signed_not]

/-- Floats of opposite counts have opposite values. -/
theorem numEq_toBinary32_neg (opposite : a.count = -b.count) :
    a.toBinary32.numEq (-b.toBinary32) = true := by
  rw [toBinary32_eq, toBinary32_eq, opposite]
  exact numEq_ofCount_neg (natAbs_count_le b)

/-- Quantization is odd.  A value and its opposite, both in the symmetric
    part of the range, arrive as opposite values.  They are encoded at the
    same exponent with opposite mantissas exactly if neither mantissa is
    -2048; otherwise the other one is 1024, at the next exponent. -/
theorem encode_neg (least : -maxValue ≤ value) (most : value ≤ maxValue) :
    (encode (-value)).toBinary32.numEq (-(encode value).toBinary32) = true
      ∧ (Mirrors (encode (-value)) (encode value)
        ↔ (encode value).signedMantissa ≠ -2048
          ∧ (encode (-value)).signedMantissa ≠ -2048)
      ∧ ((encode value).signedMantissa = -2048 →
        Carries (encode value) (encode (-value)))
      ∧ ((encode (-value)).signedMantissa = -2048 →
        Carries (encode (-value)) (encode value)) := by
  have opposite := hundredths_neg least most
  have back : hundredths value = -hundredths (-value) := by
    rw [opposite, Int.neg_neg]
  have low := carries_of_opposite opposite
  have high := carries_of_opposite back
  refine ⟨numEq_toBinary32_neg ?_, ⟨?_, ?_⟩, low, high⟩
  · by_cases lacks : (encode value).signedMantissa = -2048
    · exact (low lacks).count_eq
    · by_cases lacks' : (encode (-value)).signedMantissa = -2048
      · rw [(high lacks').count_eq, Int.neg_neg]
      · exact (mirrors_of_opposite opposite lacks lacks').count_eq
  · rintro ⟨exponents, mantissas⟩
    -- opposite to -2048 would be 2048
    have few := signedMantissa_mem (encode value)
    have few' := signedMantissa_mem (encode (-value))
    omega
  · rintro ⟨has, has'⟩
    exact mirrors_of_opposite opposite has has'

/-- The first values of which only the negative one fits. -/
theorem encode_neg_at_first_carry :
    -maxValue ≤ (20.48 : Binary32) ∧ (20.48 : Binary32) ≤ maxValue
      ∧ (encode (-20.48)).signedMantissa = -2048
      ∧ Carries (encode (-20.48)) (encode 20.48)
      ∧ (encode (-20.48)).toBinary32.numEq (-(encode 20.48).toBinary32)
        = true := by
  have least : -maxValue ≤ (20.48 : Binary32) := by decide +kernel
  have most : (20.48 : Binary32) ≤ maxValue := by decide +kernel
  have lacks : (encode (-20.48)).signedMantissa = -2048 := by decide +kernel
  obtain ⟨same, -, -, carries⟩ := encode_neg least most
  exact ⟨least, most, lacks, carries lacks, same⟩

end Float16

end Fieldbus
