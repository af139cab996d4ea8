import Fieldbus.Proofs.Float16.Encoding

/-! # The value of a count

    A float stands for its count of hundredths, rounded once.  The two
    products that form the value are one rounding only, because scaling by
    a power of two is exact; so all splits of a count into mantissa and
    exponent have the same value, and the values are in the order of the
    counts. -/

namespace Fieldbus

open Binary32

namespace Float16

/-- One hundredth, rounded: 24 bits of it, `2^-149` being the least step. -/
def unitMagnitude : Magnitude where
  units := 10737418 <<< 119
  representable := by decide

/-- The unit is the rounded hundredth. -/
theorem unit_eq : unit = .finite false unitMagnitude := by decide +kernel

/-- The least steps in some hundredths, rounded. -/
def hundredthUnits (n : Nat) : Nat := roundUnits (unitMagnitude.units * n) 1

/-- The value of a count of hundredths. -/
def ofCount (count : Int) : Binary32 :=
  ofUnitRatio (count < 0) (unitMagnitude.units * count.natAbs) 1

/-! ## Sizes -/

/-- No hundredths have no size. -/
theorem hundredthUnits_zero : hundredthUnits 0 = 0 := roundUnits_zero 1

/-- More hundredths are never smaller. -/
theorem hundredthUnits_mono {m n : Nat} (le : m ≤ n) :
    hundredthUnits m ≤ hundredthUnits n :=
  roundUnits_mono Nat.one_pos (Nat.mul_le_mul_left _ le)

/-- No multiple of the unit is subnormal. -/
theorem normal_unit_mul {n : Nat} (pos : 0 < n) :
    0x800000 ≤ unitMagnitude.units * n := by
  have least : 0x800000 ≤ unitMagnitude.units := by decide
  exact Nat.le_trans least (Nat.le_mul_of_pos_right _ pos)

/-- The size doubles with the hundredths. -/
theorem hundredthUnits_shiftLeft (n k : Nat) :
    hundredthUnits (n <<< k) = hundredthUnits n <<< k := by
  rcases Nat.eq_zero_or_pos n with rfl | pos
  · rw [Nat.zero_shiftLeft, hundredthUnits_zero, Nat.zero_shiftLeft]
  · rw [hundredthUnits, hundredthUnits, Nat.mul_comm, shiftLeft_mul,
      Nat.mul_comm n, roundUnits_shiftLeft (normal_unit_mul pos)]

/-- The counts of floats have finite values. -/
theorem hundredthUnits_lt {n : Nat} (bounded : n ≤ 0x4000000) :
    hundredthUnits n < limitUnits :=
  Nat.lt_of_le_of_lt (hundredthUnits_mono bounded) (by decide +kernel)

/-! ## The value of a float -/

/-- Mantissas of up to 24 bits are exact. -/
theorem ofInt_eq {n : Int} (small : n.natAbs ≤ 0x1000000) :
    Binary32.ofInt n = .finite (n < 0) (.whole n.natAbs small) :=
  ofRatio_whole _ small

/-- The first product rounds the mantissa's hundredths. -/
theorem unit_mul_ofInt {n : Int} (small : n.natAbs ≤ 0x1000000) :
    unit * Binary32.ofInt n = ofCount n := by
  rw [unit_eq, ofInt_eq small]
  show ofUnitRatio (false != decide (n < 0))
    (unitMagnitude.units * n.natAbs <<< 149) oneUnits = _
  rw [Bool.false_bne]
  refine ofUnitRatio_congr ?_
  exact roundUnits_whole unitMagnitude.units n.natAbs

/-- Counts of floats have finite values. -/
theorem ofCount_eq {n : Int} (bounded : n.natAbs ≤ 0x4000000) :
    ofCount n = .finite (n < 0)
      ⟨hundredthUnits n.natAbs, hundredthUnits_lt bounded,
        ulp_dvd_roundUnits _ _⟩ :=
  dif_pos (hundredthUnits_lt bounded)

/-- Doubling a count keeps its sign. -/
theorem decide_shiftLeft_neg (n : Int) (k : Nat) :
    decide (n <<< k < 0) = decide (n < 0) := by
  rw [Int.shiftLeft_eq, decide_eq_decide]
  have positive : (0 : Int) < 2 ^ k := Int.pow_pos (by decide)
  constructor
  · intro product
    rcases Int.lt_or_le n 0 with negative | nonnegative
    · exact negative
    · have := Int.mul_nonneg nonnegative (Int.le_of_lt positive)
      omega
  · intro negative
    exact Int.mul_neg_of_neg_of_pos negative positive

/-- Doubling a count doubles its size. -/
theorem natAbs_shiftLeft (n : Int) (k : Nat) :
    (n <<< k).natAbs = n.natAbs <<< k := by
  rw [Int.shiftLeft_eq, Int.natAbs_mul, Nat.shiftLeft_eq, Int.natAbs_pow]
  rfl

/-- The second product doubles the count. -/
theorem ofCount_mul_ofNat {n : Int} (bounded : n.natAbs ≤ 0x4000000)
    {k : Nat} (le : k ≤ 24) :
    ofCount n * Binary32.ofNat (1 <<< k) = ofCount (n <<< k) := by
  have power_le : 1 <<< k ≤ 0x1000000 := by
    rw [Nat.one_shiftLeft, show 0x1000000 = 2 ^ 24 by rfl]
    exact Nat.pow_le_pow_right (by decide) le
  have power_pos := one_shiftLeft_pos k
  have grid := grid_shiftLeft (ulp_dvd_roundUnits
    (unitMagnitude.units * n.natAbs) 1) k
  rw [mul_ofNat power_pos power_le, ofCount_eq bounded, scale_whole, ofCount,
    decide_shiftLeft_neg]
  refine ofUnitRatio_congr ?_
  rw [natAbs_shiftLeft]
  show roundUnits (hundredthUnits n.natAbs * 1 <<< k) 1
    = hundredthUnits (n.natAbs <<< k)
  rw [hundredthUnits_shiftLeft, Nat.one_shiftLeft, ← Nat.shiftLeft_eq]
  exact roundUnits_one_of_grid grid

/-- The counts of floats lie between those of the extreme mantissas at the
    greatest exponent. -/
theorem count_mem (float : Float16) :
    minMantissa <<< maxExponent ≤ float.count
      ∧ float.count ≤ maxMantissa <<< maxExponent := by
  have least : minMantissa <<< maxExponent = -2048 * 2 ^ 15 := rfl
  have most : maxMantissa <<< maxExponent = 2047 * 2 ^ 15 := rfl
  obtain ⟨lower, upper⟩ := fits_signedMantissa float
  have exponent_le : float.exponent.val ≤ 15 :=
    Nat.le_of_lt_succ float.exponent.isLt
  have power_le : (2 : Int) ^ float.exponent.val ≤ 2 ^ 15 := by
    exact_mod_cast Nat.pow_le_pow_right (show 0 < 2 by decide) exponent_le
  have power_pos : (0 : Int) < 2 ^ float.exponent.val :=
    Int.pow_pos (by decide)
  have scaled_lower : -2048 * 2 ^ float.exponent.val
      ≤ float.signedMantissa * 2 ^ float.exponent.val :=
    Int.mul_le_mul_of_nonneg_right lower (Int.le_of_lt power_pos)
  have scaled_upper : float.signedMantissa * 2 ^ float.exponent.val
      ≤ 2047 * 2 ^ float.exponent.val :=
    Int.mul_le_mul_of_nonneg_right upper (Int.le_of_lt power_pos)
  rw [least, most, count, Int.shiftLeft_eq]
  omega

/-- No float stands for more hundredths than the least one. -/
theorem natAbs_count_le (float : Float16) : float.count.natAbs ≤ 0x4000000 := by
  have least : minMantissa <<< maxExponent = -0x4000000 := rfl
  have most : maxMantissa <<< maxExponent = 0x3FF8000 := rfl
  obtain ⟨lower, upper⟩ := count_mem float
  omega

/-- The size of a float's count. -/
theorem natAbs_count (float : Float16) :
    float.count.natAbs
      = float.signedMantissa.natAbs <<< float.exponent.val :=
  natAbs_shiftLeft _ _

/-- What fits the mantissa has at most eleven bits besides the sign, or is
    the next power of two. -/
theorem Fits.natAbs_le {mantissa : Int} (fits : Fits mantissa) :
    mantissa.natAbs ≤ 2048 := by
  obtain ⟨least, most⟩ := fits
  rw [minMantissa] at least
  rw [maxMantissa] at most
  omega

/-- The size of a float's mantissa. -/
theorem natAbs_signedMantissa_le (float : Float16) :
    float.signedMantissa.natAbs ≤ 2048 :=
  (fits_signedMantissa float).natAbs_le

/-- Counts of floats have few enough bits to be exact. -/
theorem ulp_dvd_natAbs_count (float : Float16) :
    ulp float.count.natAbs ∣ float.count.natAbs := by
  have small := natAbs_signedMantissa_le float
  rw [natAbs_count]
  exact ulp_dvd_of_le _ (by omega)

/-- A float has the value of its count. -/
theorem toBinary32_eq (float : Float16) :
    float.toBinary32 = ofCount float.count := by
  obtain ⟨least, most⟩ := signedMantissa_mem float
  have exponent_lt := float.exponent.isLt
  rw [toBinary32, unit_mul_ofInt (by omega),
    ofCount_mul_ofNat (by omega) (by omega), count]

/-! ## Counts and the order of values -/

/-- A count is its size under its sign. -/
theorem signed_natAbs (n : Int) : signed (n < 0) n.natAbs = n := by
  rw [signed]
  split
  · next negative =>
      have := of_decide_eq_true negative
      omega
  · next nonnegative =>
      have := of_decide_eq_false (Bool.eq_false_iff.mpr nonnegative)
      omega

/-- A larger count never has the smaller value. -/
theorem ofCount_mono {m n : Int} (le : m ≤ n) : ofCount m ≤ ofCount n := by
  refine (le_iff_of_position (position?_ofUnitRatio _ _ _)
    (position?_ofUnitRatio _ _ _)).mpr ?_
  refine signed_le_signed
    (f := fun size => min (hundredthUnits size) limitUnits) ?_ ?_ ?_
  · show min (hundredthUnits 0) limitUnits = 0
    rw [hundredthUnits_zero, Nat.zero_min]
  · intro m n le
    have sizes := hundredthUnits_mono le
    show min (hundredthUnits m) limitUnits ≤ min (hundredthUnits n) limitUnits
    omega
  · rw [signed_natAbs, signed_natAbs]
    exact le

/-- The greatest counts of either sign have the bounds as values. -/
theorem ofCount_bounds :
    ofCount (minMantissa <<< maxExponent) = minValue
      ∧ ofCount (maxMantissa <<< maxExponent) = maxValue := by
  decide +kernel

end Float16

end Fieldbus
