import Fieldbus.Proofs.Binary32.Exact
import Fieldbus.Proofs.Float16.Precision
import Fieldbus.Proofs.Transmission

/-! # Quantization — cut toward zero by less than a step

    Of the whole hundredths in a held value the float keeps a multiple of
    its exponent's power.  Both the hundredfold of the value and the size
    of the count are rounded, but the unit is too small by more than that
    can make up for:

    * the size of the count never exceeds the value, because a size above
      it would put the hundredfold 74 parts below the count, and rounding
      adds 64 at most;
    * the value exceeds the size by at most 10737664 parts of `2^-30` times
      the exponent's power, a little less than `0.01 + 2^-22`, because
      where the mantissa is large a last place is 1024 parts or more. -/

namespace Fieldbus

open Binary32

namespace Float16

variable {units n mantissa exponent : Nat}

/-! ## Sizes and hundredfolds -/

/-- A count that a hundredfold reaches has no greater size than the value. -/
theorem hundredthUnits_le_of_reached (grid : ulp units ∣ units)
    (reached : n <<< 149 ≤ roundUnits (units * 100) 1) :
    hundredthUnits n ≤ units := by
  rcases Nat.eq_zero_or_pos n with rfl | pos
  · rw [hundredthUnits_zero]
    exact Nat.zero_le _
  · rcases Nat.lt_or_ge units (hundredthUnits n) with below | le
    · exfalso
      have binade := binade_mem pos
      have size : unitMagnitude.units * n = 10737418 <<< 119 * n := rfl
      have nearest : units + hundredthUnits n
          ≤ 2 * (unitMagnitude.units * n) := by
        have sum_le := add_roundUnits_le Nat.one_pos grid below
        rw [Nat.mul_one] at sum_le
        exact sum_le
      have near := (hundredthUnits_near n).1
      have rounded := @roundUnits_mul_le (units * 100) 1 Nat.one_pos
      rw [Nat.div_one] at rounded
      -- the hundredfold is off by at most half of 128 parts
      have place : ulp (units * 100) ≤ 128 * 1 <<< n.log2 <<< 119 := by
        have bound : units * 100 < 0x1000000 <<< (n.log2 + 126) := by
          rw [shiftLeft_add_eq]
          omega
        have power := ulp_le_of_lt bound
        rw [Nat.shiftLeft_add] at power
        omega
      -- where last places are comparable, the two sizes are one part apart
      rcases Nat.lt_or_ge units (0x800000 <<< (n.log2 + 119)) with low | high
      · rw [shiftLeft_add_eq] at low
        omega
      · have part_dvd := shiftLeft_dvd_ulp high
        rw [Nat.shiftLeft_add] at part_dvd
        have apart := add_le_of_dvd_of_lt (Nat.dvd_trans part_dvd grid)
          (Nat.dvd_trans (dvd_ulp_size binade.1) (ulp_dvd_hundredthUnits n))
          below
        omega
    · exact le

/-- The count of the next mantissa is a step away. -/
theorem succ_shiftLeft (m k : Nat) : (m + 1) <<< k = m <<< k + 1 <<< k := by
  rw [Nat.shiftLeft_eq, Nat.shiftLeft_eq, Nat.one_shiftLeft, Nat.add_mul,
    Nat.one_mul]

/-- A hundredfold that rounding keeps below the next mantissa is below it. -/
theorem mul_hundred_lt (small : mantissa ≤ 2048)
    (left : roundUnits (units * 100) 1 < (mantissa + 1) <<< exponent <<< 149) :
    units * 100 < (mantissa + 1) <<< exponent <<< 149 := by
  rcases Nat.lt_or_ge (units * 100) ((mantissa + 1) <<< exponent <<< 149)
    with below | reached
  · exact below
  · have next_grid := @ulp_dvd_of_le (mantissa + 1) (exponent + 149) (by omega)
    rw [Nat.shiftLeft_add] at next_grid
    rw [← Nat.mul_one ((mantissa + 1) <<< exponent <<< 149)] at reached
    exact absurd (le_roundUnits Nat.one_pos next_grid reached)
      (Nat.not_le_of_lt left)

/-- The value of a count that is short of a hundredfold by less than a step
    is short of the value by at most 10737664 parts. -/
theorem le_hundredthUnits_add (grid : ulp units ∣ units)
    (small : mantissa ≤ 2048)
    (left : roundUnits (units * 100) 1 < (mantissa + 1) <<< exponent <<< 149) :
    units ≤ hundredthUnits (mantissa <<< exponent)
      + 10737664 * 1 <<< exponent <<< 119 := by
  have below := mul_hundred_lt small left
  have count_le : mantissa <<< exponent ≤ 2048 * 1 <<< exponent := by
    rw [Nat.shiftLeft_eq, Nat.one_shiftLeft]
    exact Nat.mul_le_mul_right _ small
  rw [succ_shiftLeft] at below
  have near := (hundredthUnits_near (mantissa <<< exponent)).2
  have size : unitMagnitude.units * mantissa <<< exponent
      = 10737418 <<< 119 * mantissa <<< exponent := rfl
  have place_dvd := ulp_dvd_hundredthUnits (mantissa <<< exponent)
  rcases Nat.lt_or_ge (hundredthUnits (mantissa <<< exponent)
    + 10737664 * 1 <<< exponent <<< 119) units with apart | le
  · exfalso
    -- all three are multiples of the size's last place
    have step_dvd : ulp (unitMagnitude.units * mantissa <<< exponent)
        ∣ 10737664 * 1 <<< exponent <<< 119 := by
      have bound : 10737418 * mantissa <<< exponent
          < 0x1000000 * 1 <<< (exponent + 11) := by
        rw [Nat.shiftLeft_add]
        omega
      refine Nat.dvd_trans (ulp_size_dvd bound) ⟨5243, ?_⟩
      rw [Nat.shiftLeft_add]
      omega
    have units_dvd : ulp (unitMagnitude.units * mantissa <<< exponent)
        ∣ units := by
      have le : hundredthUnits (mantissa <<< exponent) ≤ units := by omega
      exact Nat.dvd_trans (ulp_dvd_ulp_hundredthUnits _)
        (ulp_dvd_of_grid grid le)
    have further := add_le_of_dvd_of_lt (Nat.dvd_add place_dvd step_dvd)
      units_dvd apart
    rcases Nat.lt_or_ge (mantissa <<< exponent) (1 <<< (exponent + 10))
      with lesser | large
    · rw [Nat.shiftLeft_add] at lesser
      omega
    · have place := Nat.le_of_dvd (ulp_pos _) (dvd_ulp_size large)
      rw [Nat.shiftLeft_add] at place
      omega
  · exact le

/-! ## The hundredths of a held value -/

variable {negative : Bool} {magnitude : Magnitude}

/-- The hundredths of a held value are the whole part of its hundredfold,
    which saturates nowhere. -/
theorem hundredths_finite (least : minValue ≤ .finite negative magnitude)
    (most : .finite negative magnitude ≤ maxValue) :
    hundredths (.finite negative magnitude)
      = signed negative (roundUnits (magnitude.units * 100) 1 / oneUnits) := by
  have least_eq : minMantissa <<< maxExponent = -0x4000000 := rfl
  have most_eq : (maxMantissa + 1) <<< maxExponent = 0x4000000 := rfl
  have bounds := hundredths_mem (.finite negative magnitude)
  rw [least_eq, most_eq, hundredths, clamp_of_mem least most, mul_hundred,
    scale_whole] at bounds
  rw [hundredths, clamp_of_mem least most, mul_hundred, scale_whole]
  exact truncate_ofUnitRatio (by omega) (by omega)

/-- The size of the count a held value is sent as. -/
theorem natAbs_count_encode (least : minValue ≤ .finite negative magnitude)
    (most : .finite negative magnitude ≤ maxValue) :
    let float := encode (.finite negative magnitude)
    let folded := roundUnits (magnitude.units * 100) 1
    float.count.natAbs <<< 149 ≤ folded
      ∧ folded < (float.signedMantissa.natAbs + 1)
        <<< float.exponent.val <<< 149 := by
  intro float folded
  have cut := cut_encode (.finite negative magnitude)
  rw [hundredths_finite least most] at cut
  have reached := cut.natAbs_le
  have left := cut.natAbs_lt
  rw [natAbs_signed] at reached left
  refine ⟨le_div_oneUnits_iff.mp reached, ?_⟩
  rw [succ_shiftLeft, ← natAbs_count]
  exact div_oneUnits_lt_iff.mp left

/-! ## Exact values -/

/-- A float that is a value cut toward zero: it has no other sign, is not
    larger, and falls short by less than `0.01 + 2^-22` times the power of
    its exponent. -/
def Truncates (float : Float16) (value : Binary32) : Prop :=
  ∃ v w : Rat, value.toRat? = some v ∧ float.toBinary32.toRat? = some w
    ∧ (w = 0 ∨ (0 < v ∧ 0 < w) ∨ (v < 0 ∧ w < 0)) ∧ |w| ≤ |v|
    ∧ |v| - |w| < (1 / 100 + 1 / 2 ^ 22) * 2 ^ float.exponent.val

/-- The rational number that the value of a float is. -/
theorem toRat?_toBinary32 (float : Float16) :
    float.toBinary32.toRat?
      = some (mkRat (signed (float.count < 0)
        (hundredthUnits float.count.natAbs)) oneUnits) := by
  rw [toBinary32_eq, ofCount_eq (natAbs_count_le float)]
  rfl

/-- Bounds on least steps are bounds on the rational numbers. -/
theorem truncates_of_units {float : Float16}
    (sign : float.count = 0 ∨ decide (float.count < 0) = negative)
    (upper : hundredthUnits float.count.natAbs ≤ magnitude.units)
    (lower : magnitude.units ≤ hundredthUnits float.count.natAbs
      + 10737664 * 1 <<< float.exponent.val <<< 119) :
    float.Truncates (.finite negative magnitude) := by
  have sign' : hundredthUnits float.count.natAbs = 0
      ∨ decide (float.count < 0) = negative := by
    refine sign.imp_left ?_
    intro zero
    rw [zero]
    exact hundredthUnits_zero
  have shortfall : (magnitude.units : Rat)
      ≤ hundredthUnits float.count.natAbs
        + 10737664 * 2 ^ float.exponent.val * 2 ^ 119 := by
    rw [Nat.shiftLeft_eq, Nat.one_shiftLeft] at lower
    exact_mod_cast Nat.mul_assoc _ _ _ ▸ lower
  refine ⟨_, _, rfl, toRat?_toBinary32 float, mkRat_sign sign' upper, ?_, ?_⟩
  · rw [abs_mkRat_signed, abs_mkRat_signed]
    have sizes : (hundredthUnits float.count.natAbs : Rat)
        ≤ magnitude.units := by exact_mod_cast upper
    exact div_le_div_of_nonneg_right sizes (by positivity)
  · rw [abs_mkRat_signed, abs_mkRat_signed]
    have power_pos : (0 : Rat) < 2 ^ float.exponent.val := by positivity
    calc (magnitude.units : Rat) / 2 ^ 149
          - (hundredthUnits float.count.natAbs : Rat) / 2 ^ 149
        = (magnitude.units - hundredthUnits float.count.natAbs) / 2 ^ 149 :=
          (sub_div _ _ _).symm
      _ ≤ 10737664 * 2 ^ float.exponent.val * 2 ^ 119 / 2 ^ 149 := by
          refine div_le_div_of_nonneg_right ?_ (by positivity)
          exact sub_le_iff_le_add'.mpr shortfall
      _ = 10737664 / 2 ^ 30 * 2 ^ float.exponent.val := by ring
      _ < (1 / 100 + 1 / 2 ^ 22) * 2 ^ float.exponent.val :=
          mul_lt_mul_of_pos_right (by norm_num) power_pos

/-- Held values are cut toward zero. -/
theorem encode_truncates {value : Binary32} (least : minValue ≤ value)
    (most : value ≤ maxValue) : (encode value).Truncates value := by
  cases value with
  | nan => exact absurd least (by decide +kernel)
  | infinity negative =>
      cases negative with
      | false => exact absurd most (by decide +kernel)
      | true => exact absurd least (by decide +kernel)
  | finite negative magnitude =>
      have grid := magnitude.representable.2
      have small := natAbs_signedMantissa_le
        (encode (.finite negative magnitude))
      have cut := cut_encode (.finite negative magnitude)
      rw [hundredths_finite least most] at cut
      obtain ⟨reached, left⟩ := natAbs_count_encode least most
      have upper := hundredthUnits_le_of_reached grid reached
      have lower := le_hundredthUnits_add grid small left
      rw [← natAbs_count] at lower
      exact truncates_of_units cut.sign upper lower

end Float16

/-! ## Reals on the wire -/

/-- Floats cover the ranges of all families. -/
theorem Measured.range_covered (family : Measured) :
    Float16.minValue ≤ family.range.min
      ∧ family.range.max ≤ Float16.maxValue := by
  cases family with
  | temperature => decide +kernel
  | illuminance => decide +kernel
  | windSpeed => decide +kernel
  | humidity => decide +kernel

namespace Codec

/-- What is sent of a held real is the float that truncates it: as it is
    encoded, and in the frames of all measured quantities. -/
theorem send_truncates :
    (∀ value : Binary32, Float16.minValue ≤ value →
        value ≤ Float16.maxValue → (Float16.encode value).Truncates value)
      ∧ ∀ (family : Measured) (value : Binary32), family.range.min ≤ value →
        value ≤ family.range.max → ∃ float : Float16,
          Float16.decode ((typed (.measured family)).send value) = pure float
            ∧ (typed (.measured family)).transmit value
              = pure float.toBinary32
            ∧ float.Truncates value := by
  refine ⟨fun _ least most => Float16.encode_truncates least most, ?_⟩
  intro family value least most
  obtain ⟨covered_below, covered_above⟩ := family.range_covered
  have unchanged : family.range.clamp value = value := clamp_of_mem least most
  have truncates := Float16.encode_truncates
    (Binary32.le_trans covered_below least)
    (Binary32.le_trans most covered_above)
  refine ⟨Float16.encode value, ?_, ?_, truncates⟩
  · show Float16.decode
      (Float16.encode (family.range.clamp value)).toFrame.toBytes = _
    rw [unchanged]
    exact Float16.decode_toFrame _
  · rw [transmit_eq, received_measured, unchanged, Float16.toBinary32_eq]

/-- At the least values that are held: of all floats, and of a
    temperature. -/
theorem send_truncates_at_bounds :
    (Float16.encode Float16.minValue).Truncates Float16.minValue
      ∧ ∃ float : Float16,
          Float16.decode ((typed (.measured .temperature)).send
              (-273 : Binary32)) = pure float
            ∧ (typed (.measured .temperature)).transmit (-273 : Binary32)
              = pure float.toBinary32
            ∧ float.Truncates (-273 : Binary32) :=
  ⟨send_truncates.1 _ (by decide +kernel) (by decide +kernel),
    send_truncates.2 .temperature (-273 : Binary32) (by decide +kernel)
      (by decide +kernel)⟩

end Codec

end Fieldbus
