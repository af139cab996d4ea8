import Mathlib.Tactic.Linarith
import Fieldbus.Proofs.Float16.Comparison

/-! # Accuracy — an ordinary number, near the exact one

    The value of a float is `0.01 · m`, rounded, times `2^e`.  The mantissa
    is exact, and the product with the power of two is, so one rounding is
    all there is.  Measured by `2^-23` of the value,

    * the rounded hundredth is too small by three sixteenths;
    * rounding its multiple adds at most one half, to either side.

    The two together stay below one.  Nothing underflows on the way, since
    a single hundredth has 24 bits, and nothing exceeds the range that is
    held in encoding: the two extreme floats have just the bounds of that
    range as values, and no other float does. -/

namespace Fieldbus

namespace Binary32

/-- The least steps in `2^-126`, from which on a magnitude has 24 bits. -/
def leastNormal : Nat := 0x800000

/-- A number that is finite, not subnormal, and not a negative zero. -/
def Ordinary : Binary32 → Prop
  | .nan => False
  | .infinity _ => False
  | .finite negative magnitude =>
      leastNormal ≤ magnitude.units
        ∨ (magnitude.units = 0 ∧ negative = false)

end Binary32

open Binary32

namespace Float16

/-! ## The error of a size -/

/-- A hundredfold of a size is off by at most `2^-23` of the count. -/
theorem hundredthUnits_relative (n : Nat) :
    0x800000 * (100 * hundredthUnits n) ≤ 0x800001 * n <<< 149
      ∧ 0x7FFFFF * n <<< 149 ≤ 0x800000 * (100 * hundredthUnits n) := by
  rcases Nat.eq_zero_or_pos n with rfl | pos
  · rw [hundredthUnits_zero, Nat.zero_shiftLeft]
    exact ⟨Nat.le_refl _, Nat.le_refl _⟩
  · have size : unitMagnitude.units * n = 10737418 <<< 119 * n := rfl
    -- half a last place is half of `2^-23` of the exact multiple
    have place := ulp_mul_le (normal_unit_mul pos)
    obtain ⟨above, below⟩ := hundredthUnits_near n
    constructor
    · omega
    · omega

/-- The same of the rational number. -/
theorem abs_hundredthUnits_sub_le (n : Nat) :
    |(hundredthUnits n : Rat) / 2 ^ 149 - (n : Rat) / 100|
      ≤ 1 / 2 ^ 23 * ((n : Rat) / 100) := by
  obtain ⟨above, below⟩ := hundredthUnits_relative n
  rw [Nat.shiftLeft_eq] at above below
  have above_rat : (0x800000 : Rat) * (100 * hundredthUnits n)
      ≤ 0x800001 * (n * 2 ^ 149) := by exact_mod_cast above
  have below_rat : (0x7FFFFF : Rat) * (n * 2 ^ 149)
      ≤ 0x800000 * (100 * hundredthUnits n) := by exact_mod_cast below
  rw [abs_sub_le_iff]
  constructor
  · rw [sub_le_iff_le_add, div_le_iff₀ (by positivity)]
    linarith
  · rw [sub_le_comm, le_div_iff₀ (by positivity)]
    linarith

/-! ## The value of a float -/

variable {float : Float16}

/-- A count is the mantissa times the power, also among the rationals. -/
theorem cast_count (float : Float16) :
    ((float.count : Int) : Rat)
      = float.signedMantissa * 2 ^ float.exponent.val := by
  rw [count_eq_mul, Int.cast_mul, Int.cast_pow, Int.cast_ofNat]

/-- The size of a count is that of the mantissa times the power. -/
theorem cast_natAbs_count (float : Float16) :
    ((float.count.natAbs : Nat) : Rat)
      = |(float.signedMantissa : Rat)| * 2 ^ float.exponent.val := by
  have power_pos : (0 : Rat) < 2 ^ float.exponent.val := by positivity
  rw [Nat.cast_natAbs, Int.cast_abs, cast_count, abs_mul,
    abs_of_pos power_pos]

/-- A float whose value is off from `m · 2^e / 100` by at most `2^-23` of
    it. -/
def Accurate (float : Float16) : Prop :=
  ∃ w : Rat, float.toBinary32.toRat? = some w
    ∧ |w - float.signedMantissa * 2 ^ float.exponent.val / 100|
      ≤ 1 / 2 ^ 23
        * (|(float.signedMantissa : Rat)| * 2 ^ float.exponent.val / 100)

/-- All floats are accurate. -/
theorem accurate (float : Float16) : float.Accurate := by
  refine ⟨_, toRat?_toBinary32 float, ?_⟩
  have distance := abs_mkRat_signed_sub (float.count < 0)
    (hundredthUnits float.count.natAbs) float.count.natAbs 100
  rw [signed_natAbs, Nat.cast_ofNat] at distance
  rw [← cast_count, ← cast_natAbs_count, distance]
  exact abs_hundredthUnits_sub_le float.count.natAbs

/-- The mantissa is exact. -/
theorem toRat?_ofInt_signedMantissa (float : Float16) :
    (Binary32.ofInt float.signedMantissa).toRat?
      = some (float.signedMantissa : Rat) := by
  have small : float.signedMantissa.natAbs ≤ 0x1000000 :=
    Nat.le_trans (natAbs_signedMantissa_le float) (by decide)
  rw [ofInt_eq small, toRat?_whole, signed_natAbs]

/-- The product with the power of two is exact. -/
theorem toRat?_product (float : Float16) :
    ∃ p : Rat, (unit * Binary32.ofInt float.signedMantissa).toRat? = some p
      ∧ float.toBinary32.toRat? = some (p * 2 ^ float.exponent.val) := by
  have small := natAbs_signedMantissa_le float
  have sign : decide (float.count < 0) = decide (float.signedMantissa < 0) :=
    decide_shiftLeft_neg _ _
  refine ⟨mkRat (signed (float.signedMantissa < 0)
    (hundredthUnits float.signedMantissa.natAbs)) oneUnits, ?_, ?_⟩
  · rw [unit_mul_ofInt (by omega), ofCount_eq (by omega)]
    rfl
  · rw [toRat?_toBinary32, sign, natAbs_count, hundredthUnits_shiftLeft,
      Nat.shiftLeft_eq, Rat.mkRat_eq_div, Rat.mkRat_eq_div, cast_signed,
      cast_signed]
    congr 1
    push_cast
    split
    · ring
    · ring

/-- The value of a float is an ordinary number. -/
theorem ordinary_toBinary32 (float : Float16) : float.toBinary32.Ordinary := by
  rw [toBinary32_eq, ofCount_eq (natAbs_count_le float)]
  rcases Nat.eq_zero_or_pos float.count.natAbs with zero | pos
  · refine Or.inr ⟨?_, ?_⟩
    · show hundredthUnits float.count.natAbs = 0
      rw [zero, hundredthUnits_zero]
    · rw [Int.natAbs_eq_zero.mp zero]
      rfl
  · -- one hundredth is normal, and more are not less
    have least : leastNormal ≤ hundredthUnits 1 := by decide +kernel
    exact Or.inl (Nat.le_trans least (hundredthUnits_mono pos))

/-! ## The range of values -/

/-- Values lie in the range that is held in encoding. -/
theorem toBinary32_mem (float : Float16) :
    minValue ≤ float.toBinary32 ∧ float.toBinary32 ≤ maxValue := by
  obtain ⟨least, most⟩ := count_mem float
  rw [toBinary32_eq, ← ofCount_bounds.1, ← ofCount_bounds.2]
  exact ⟨ofCount_mono least, ofCount_mono most⟩

/-- Counts beyond half of the range need the greatest exponent. -/
theorem exponent_eq_of_lt_natAbs_count
    (large : 0x2000000 < float.count.natAbs) : float.exponent.val = 15 := by
  have small := natAbs_signedMantissa_le float
  have exponent_lt := float.exponent.isLt
  rcases Nat.lt_or_ge float.exponent.val 15 with lower | greatest
  · exfalso
    have power : 2 ^ float.exponent.val ≤ 2 ^ 14 :=
      Nat.pow_le_pow_right (by decide) (Nat.le_of_lt_succ lower)
    have product := Nat.mul_le_mul small power
    rw [natAbs_count, Nat.shiftLeft_eq] at large
    omega
  · omega

/-- Such a count is that of one float only. -/
theorem count_eq_iff (mantissa : Int) (large : 1024 < mantissa.natAbs) :
    float.count = mantissa * 0x8000
      ↔ float.signedMantissa = mantissa ∧ float.exponent.val = 15 := by
  have split_count := count_eq_mul float
  constructor
  · intro same
    have beyond : 0x2000000 < float.count.natAbs := by omega
    have exponent := exponent_eq_of_lt_natAbs_count beyond
    rw [exponent] at split_count
    exact ⟨by omega, exponent⟩
  · rintro ⟨rfl, exponent⟩
    rw [split_count, exponent]
    rfl

/-- The bounds of the range are the values of the two extreme floats. -/
theorem toBinary32_extremes :
    (ofParts true 15 0).toBinary32 = minValue
      ∧ (ofParts false 15 2047).toBinary32 = maxValue := by
  decide +kernel

/-- The lower bound is the value of one float only. -/
theorem numEq_minValue_iff (float : Float16) :
    float.toBinary32.numEq minValue = true
      ↔ float.signedMantissa = -2048 ∧ float.exponent.val = 15 := by
  rw [← toBinary32_extremes.1, numEq_iff_count_eq]
  exact count_eq_iff (-2048) (by decide)

/-- The upper bound is the value of one float only. -/
theorem numEq_maxValue_iff (float : Float16) :
    float.toBinary32.numEq maxValue = true
      ↔ float.signedMantissa = 2047 ∧ float.exponent.val = 15 := by
  rw [← toBinary32_extremes.2, numEq_iff_count_eq]
  exact count_eq_iff 2047 (by decide)

end Float16

namespace Codec

/-- A frame of a measured quantity is read as the value of its float. -/
theorem decode_measured (family : Measured) (head high low : UInt8) :
    (typed (.measured family)).decode [head, high, low]
      = pure (Float16.ofFrame (.float16 head high low)).toBinary32 := rfl

/-- Reconstruction is accurate and gives ordinary numbers.  The value of a
    float lies in the range held in encoding, and only the two extreme
    floats attain the bounds.  Its mantissa and the product with the power
    of two are exact, and the value is off from `m · 2^e / 100` by at most
    `2^-23` of it.  So what is read from three bytes as a measured quantity
    is an ordinary number as well. -/
theorem reconstruction_accurate :
    (∀ float : Float16,
      float.toBinary32.Ordinary
        ∧ Float16.minValue ≤ float.toBinary32
        ∧ float.toBinary32 ≤ Float16.maxValue
        ∧ (float.toBinary32.numEq Float16.minValue = true
          ↔ float.signedMantissa = -2048 ∧ float.exponent.val = 15)
        ∧ (float.toBinary32.numEq Float16.maxValue = true
          ↔ float.signedMantissa = 2047 ∧ float.exponent.val = 15)
        ∧ (Binary32.ofInt float.signedMantissa).toRat?
          = some (float.signedMantissa : Rat)
        ∧ (∃ p : Rat, (Float16.unit
            * Binary32.ofInt float.signedMantissa).toRat? = some p
          ∧ float.toBinary32.toRat? = some (p * 2 ^ float.exponent.val))
        ∧ float.Accurate)
      ∧ ∀ (family : Measured) (head high low : UInt8), ∃ value : Binary32,
        (typed (.measured family)).decode [head, high, low] = pure value
          ∧ value.Ordinary := by
  constructor
  · intro float
    obtain ⟨least, most⟩ := Float16.toBinary32_mem float
    exact ⟨Float16.ordinary_toBinary32 float, least, most,
      Float16.numEq_minValue_iff float, Float16.numEq_maxValue_iff float,
      Float16.toRat?_ofInt_signedMantissa float,
      Float16.toRat?_product float, Float16.accurate float⟩
  · intro family head high low
    exact ⟨_, decode_measured family head high low,
      Float16.ordinary_toBinary32 _⟩

end Codec

end Fieldbus
