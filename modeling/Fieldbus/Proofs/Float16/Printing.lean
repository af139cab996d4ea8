import Fieldbus.Proofs.Decimal
import Fieldbus.Proofs.Float16.Accuracy
import Fieldbus.Proofs.Float16.Fields

/-! # Printing — the text shows the count

    A value is printed with two places, and what it stands for is a whole
    number of hundredths, so the text could show just that number.  The
    rounded hundredth and its rounded multiple, a hundredfold, miss a
    mantissa by at most `37 · 2^-18` of one:

    * `12 · 2^-18` by the rounded hundredth;
    * `25 · 2^-18` by half a last place of the multiple.

    The exponent scales the error up.  Until it passes one half, printing
    removes it: up to the exponent 11 the text shows the count itself.  At
    the greatest exponent, 15, the error is still below five and a half. -/

namespace Fieldbus

open Binary32

namespace Float16

/-! ## The hundredths of a size -/

/-- How far a hundredfold of a mantissa's size is from the mantissa. -/
theorem hundredthUnits_absolute {n : Nat} (small : n ≤ 2048) :
    100 * hundredthUnits n ≤ n <<< 149 + 37 <<< 131
      ∧ n <<< 149 ≤ 100 * hundredthUnits n + 37 <<< 131 := by
  have size : unitMagnitude.units * n = 10737418 <<< 119 * n := rfl
  have dvd : ulp (unitMagnitude.units * n) ∣ 1 <<< 11 <<< 119 :=
    ulp_size_dvd (by omega)
  have place : ulp (unitMagnitude.units * n) ≤ 1 <<< 11 <<< 119 :=
    Nat.le_of_dvd (by decide) dvd
  obtain ⟨above, below⟩ := hundredthUnits_near n
  constructor
  · omega
  · omega

/-- The exponent scales the distance. -/
theorem hundredthUnits_shiftLeft_absolute {n : Nat} (small : n ≤ 2048)
    (k : Nat) :
    100 * hundredthUnits (n <<< k) ≤ n <<< k <<< 149 + 37 <<< k <<< 131
      ∧ n <<< k <<< 149 ≤ 100 * hundredthUnits (n <<< k)
        + 37 <<< k <<< 131 := by
  obtain ⟨above, below⟩ := hundredthUnits_absolute small
  have above_scaled := Nat.mul_le_mul_right (2 ^ k) above
  have below_scaled := Nat.mul_le_mul_right (2 ^ k) below
  rw [Nat.add_mul] at above_scaled below_scaled
  rw [hundredthUnits_shiftLeft]
  simp only [Nat.shiftLeft_eq] at above_scaled below_scaled ⊢
  rw [Nat.mul_right_comm n, Nat.mul_right_comm 37, ← Nat.mul_assoc]
  exact ⟨above_scaled, below_scaled⟩

/-- The error grows with the exponent. -/
theorem error_mono {j k : Nat} (le : j ≤ k) : 37 <<< j ≤ 37 <<< k := by
  rw [Nat.shiftLeft_eq, Nat.shiftLeft_eq]
  exact Nat.mul_le_mul_left 37 (Nat.pow_le_pow_right (by decide) le)

/-- Where the error is below `c` and a half, the printed hundredths are off
    by at most `c`. -/
theorem roundDiv_hundredthUnits {n k c : Nat} (small : n ≤ 2048)
    (few : 37 <<< k < (2 * c + 1) <<< 17) :
    roundDiv (100 * hundredthUnits (n <<< k)) oneUnits ≤ n <<< k + c
      ∧ n <<< k ≤ roundDiv (100 * hundredthUnits (n <<< k)) oneUnits + c := by
  obtain ⟨above, below⟩ := hundredthUnits_shiftLeft_absolute small k
  have one_pos : 0 < oneUnits := by decide
  have exact_units : n <<< k * oneUnits = n <<< k <<< 149 := by
    rw [oneUnits, Nat.one_shiftLeft, ← Nat.shiftLeft_eq]
  have slack : 2 * 37 <<< k <<< 131 < (2 * c + 1) * oneUnits := by
    rw [oneUnits]
    omega
  constructor
  · refine roundDiv_le_add one_pos ?_
    rw [exact_units]
    omega
  · refine le_roundDiv_add one_pos ?_
    rw [exact_units]
    omega

/-! ## The printed decimal -/

/-- The decimal that the value of a float is printed as. -/
def printed (float : Float16) : Decimal where
  negative := float.count < 0
  hundredths := roundDiv (100 * hundredthUnits float.count.natAbs) oneUnits

/-- The text of a value is that decimal. -/
theorem text_toBinary32 (float : Float16) :
    float.toBinary32.text = float.printed.text := by
  rw [toBinary32_eq, ofCount_eq (natAbs_count_le float)]
  rfl

/-- Where the error is below `c` and a half, the printed decimal is off by
    at most `c` hundredths. -/
theorem abs_printed_sub_le (float : Float16) {c : Nat}
    (few : 37 <<< float.exponent.val < (2 * c + 1) <<< 17) :
    |float.printed.value
        - float.signedMantissa * 2 ^ float.exponent.val / 100|
      ≤ (c : Rat) / 100 := by
  obtain ⟨above, below⟩ :=
    roundDiv_hundredthUnits (natAbs_signedMantissa_le float) few
  rw [← natAbs_count] at above below
  have near := Decimal.abs_value_sub_le float.printed above below
  have count : signed float.printed.negative float.count.natAbs
      = float.count := signed_natAbs float.count
  rw [count, cast_count] at near
  exact near

/-- Up to the exponent 11 the printed decimal is the count. -/
theorem printed_eq (float : Float16) (low : float.exponent.val ≤ 11) :
    float.printed.value
      = float.signedMantissa * 2 ^ float.exponent.val / 100 := by
  have error_le := error_mono low
  have none := abs_printed_sub_le float (c := 0) (by omega)
  rw [Nat.cast_zero, zero_div] at none
  exact sub_eq_zero.mp (abs_nonpos_iff.mp none)

/-- At every exponent the printed decimal is near the count. -/
theorem printed_near (float : Float16) :
    |float.printed.value
        - float.signedMantissa * 2 ^ float.exponent.val / 100| ≤ 1 / 20 := by
  have exponent_le : float.exponent.val ≤ 15 :=
    Nat.le_of_lt_succ float.exponent.isLt
  have error_le := error_mono exponent_le
  have five := abs_printed_sub_le float (c := 5) (by omega)
  have twentieth : ((5 : Nat) : Rat) / 100 = 1 / 20 := by norm_num
  rw [twentieth] at five
  exact five

/-- The exponent 12 is the first at which a text is off: here it is
    `65986.55`, and the count is `6598656`. -/
example : (ofParts false 12 1611).count = 6598656
    ∧ (ofParts false 12 1611).printed = ⟨false, 6598655⟩ := by
  decide +kernel

end Float16

namespace Codec

/-- What is printed is what was on the wire.  The fields of the float are the
    digits of the word behind the header, and for every frame and every
    measured quantity the number in the text of what is read is
    `m · 2^e / 100` up to the exponent 11, and within five hundredths of it
    at every exponent. -/
theorem text_of_decoded (family : Measured) (head high low : UInt8) :
    ∃ (float : Float16) (value : Binary32) (text : String)
      (decimal : Decimal),
      Float16.decode [head, high, low] = pure float
        ∧ float.HasFields (256 * high.toNat + low.toNat)
        ∧ (typed (.measured family)).decode [head, high, low] = pure value
        ∧ (typed (.measured family)).text? value = some text
        ∧ Decimal.ofText? text = some decimal
        ∧ (float.exponent.val ≤ 11 → decimal.value
          = float.signedMantissa * 2 ^ float.exponent.val / 100)
        ∧ |decimal.value
            - float.signedMantissa * 2 ^ float.exponent.val / 100|
          ≤ 1 / 20 := by
  let float := Float16.ofFrame (.float16 head high low)
  refine ⟨float, float.toBinary32, withUnit float.toBinary32.text family.unit,
    float.printed, rfl, Float16.hasFields_ofFrame head high low,
    decode_measured family head high low, rfl, ?_, ?_, ?_⟩
  · rw [Float16.text_toBinary32]
    exact Decimal.ofText?_withUnit float.printed family.unit
  · intro exponent_le
    exact Float16.printed_eq float exponent_le
  · exact Float16.printed_near float

/-- The greatest mantissa at the exponent 11, read as a temperature and
    printed as it is. -/
theorem text_of_decoded_at_exponent_eleven :
    ∃ (float : Float16) (value : Binary32) (decimal : Decimal),
      Float16.decode [0, 0x5F, 0xFF] = pure float
        ∧ float.HasFields 0x5FFF
        ∧ float.exponent.val = 11 ∧ float.signedMantissa = 2047
        ∧ (typed (.measured .temperature)).decode [0, 0x5F, 0xFF]
          = pure value
        ∧ (typed (.measured .temperature)).text? value
          = some "41922.56 °C"
        ∧ Decimal.ofText? "41922.56 °C" = some decimal
        ∧ decimal.value = 2047 * 2 ^ 11 / 100 := by
  obtain ⟨float, value, text, decimal, decoded, fields, read, shown, number,
    on_the_wire, -⟩ := text_of_decoded .temperature 0 0x5F 0xFF
  have float_eq : Float16.ofParts false 11 2047 = float :=
    Except.ok.inj (congrArg Decoding.outcome decoded)
  have value_eq : (Float16.ofParts false 11 2047).toBinary32 = value :=
    Except.ok.inj (congrArg Decoding.outcome read)
  have text_eq : text = "41922.56 °C" := by
    rw [← value_eq] at shown
    refine (Option.some.inj shown).symm.trans ?_
    decide +kernel
  rw [text_eq] at shown number
  rw [← float_eq] at on_the_wire
  refine ⟨float, value, decimal, decoded, fields, ?_, ?_, read, shown, number,
    on_the_wire (by decide)⟩
  · rw [← float_eq]
    rfl
  · rw [← float_eq]
    rfl

end Codec

end Fieldbus
