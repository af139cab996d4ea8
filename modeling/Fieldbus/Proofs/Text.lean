import Mathlib.Tactic.Linarith
import Fieldbus.Binary32.Bits
import Fieldbus.Proofs.Binary32.Nearest
import Fieldbus.Proofs.Binary32.Order
import Fieldbus.Proofs.Decimal

/-! # Text — correctly rounded decimals

    A finite number is a natural number of least steps over `2^149`, and
    its text shows a hundredfold of that quotient, rounded to a whole
    number.  So the size of the number never matters: the text of the
    greatest finite number and that of the least subnormal are the same
    rounded quotient.

    * The quotient is within one half, and even where it is a half away.
    * The characters are a sign, a whole part, a point and two digits, and
      without the point the digits spell the quotient.
    * Rounding keeps the order of sizes, and the sign turns it around. -/

namespace Fieldbus

/-! ## Rounded quotients among the rationals -/

variable {num den : Nat}

/-- A rounded quotient is within one half of the exact one. -/
theorem abs_sub_roundDiv_le (pos : 0 < den) :
    |(num : Rat) / den - roundDiv num den| ≤ 1 / 2 := by
  have den_pos : (0 : Rat) < den := Nat.cast_pos.mpr pos
  have above_nat : 2 * (roundDiv num den * den) ≤ 2 * num + den :=
    roundDiv_mul_le pos
  have below_nat : 2 * num ≤ 2 * (roundDiv num den * den) + den :=
    le_roundDiv_mul pos
  have above : (2 : Rat) * (roundDiv num den * den) ≤ 2 * num + den := by
    exact_mod_cast above_nat
  have below : (2 : Rat) * num ≤ 2 * (roundDiv num den * den) + den := by
    exact_mod_cast below_nat
  rw [abs_sub_le_iff, sub_le_iff_le_add, sub_le_comm, div_le_iff₀ den_pos,
    le_div_iff₀ den_pos]
  constructor
  · linarith
  · linarith

/-- An odd number of halves leaves a remainder of one half. -/
theorem two_mul_mod_of_half {k : Nat} (half : 2 * num = (2 * k + 1) * den) :
    2 * (num % den) = den := by
  calc 2 * (num % den)
      = (2 * k + 1) * den % (2 * den) := by
        rw [← half, Nat.mul_mod_mul_left]
    _ = (2 * k + 1) % 2 * den := Nat.mul_mod_mul_right den _ _
    _ = den := by
        rw [Nat.mul_add_mod, Nat.one_mul]

/-- A rounded quotient that is one half away is even. -/
theorem roundDiv_even_of_half (pos : 0 < den)
    (half : |(num : Rat) / den - roundDiv num den| = 1 / 2) :
    roundDiv num den % 2 = 0 := by
  have den_ne : (den : Rat) ≠ 0 := Nat.cast_ne_zero.mpr (Nat.ne_of_gt pos)
  have sides := (abs_eq (by norm_num : (0 : Rat) ≤ 1 / 2)).mp half
  apply roundDiv_even_of_tie
  -- either way the quotient is an odd number of halves, hence a tie
  rcases sides with too_small | too_large
  · have quotient : (num : Rat) = (roundDiv num den + 1 / 2) * den :=
      (div_eq_iff den_ne).mp (by linarith)
    have halves : (2 : Rat) * num = (2 * roundDiv num den + 1) * den := by
      linarith
    exact two_mul_mod_of_half (by exact_mod_cast halves)
  · have quotient : (num : Rat) = (roundDiv num den - 1 / 2) * den :=
      (div_eq_iff den_ne).mp (by linarith)
    have halves : (2 : Rat) * num + den = 2 * roundDiv num den * den := by
      linarith
    have halves_nat : 2 * num + den = 2 * roundDiv num den * den := by
      exact_mod_cast halves
    -- a zero cannot be too large
    obtain ⟨k, positive⟩ : ∃ k, roundDiv num den = k + 1 := by
      refine Nat.exists_eq_add_one.mpr (Nat.pos_of_ne_zero fun zero => ?_)
      rw [zero] at halves_nat
      omega
    refine two_mul_mod_of_half (k := k) ?_
    rw [positive] at halves_nat
    linarith

/-! ## The characters of a decimal -/

namespace Decimal

/-- Some characters spell a number of hundredths: a minus sign if it is
    negative, a whole part without superfluous zeros, a point, and two
    digits. -/
def Spells (chars : List Char) (negative : Bool) (hundredths : Nat) : Prop :=
  ∃ (whole : List Char) (tens ones : Char),
    chars = (if negative then ['-'] else []) ++ whole ++ ['.', tens, ones]
      ∧ IsWhole whole ∧ (∀ c ∈ whole, c.isDigit = true)
      ∧ tens.isDigit = true ∧ ones.isDigit = true
      ∧ Nat.ofDigitChars 10 (whole ++ [tens, ones]) 0 = hundredths

/-- A decimal is spelled by its characters. -/
theorem spells_toChars (decimal : Decimal) :
    Spells decimal.toChars decimal.negative decimal.hundredths := by
  obtain ⟨negative, n⟩ := decimal
  refine ⟨Nat.toDigits 10 (n / 100), Nat.digitChar (n / 10 % 10),
    Nat.digitChar (n % 10), ?_, isWhole_toDigits _, ?_,
    isDigit_lastDigit _, isDigit_lastDigit _, ofDigitChars_digits n⟩
  · cases negative with
    | false => rfl
    | true => rfl
  · exact fun c => Nat.isDigit_of_mem_toDigits (by decide) (by decide)

/-- Decimals are in the order of their hundredths, under their signs. -/
theorem value_le_value {p q : Decimal}
    (le : Binary32.signed p.negative p.hundredths
      ≤ Binary32.signed q.negative q.hundredths) : p.value ≤ q.value := by
  rw [value, value, Rat.mkRat_eq_div, Rat.mkRat_eq_div]
  exact div_le_div_of_nonneg_right (Int.cast_le.mpr le) (Nat.cast_nonneg _)

end Decimal

/-! ## The decimal of a number -/

namespace Binary32

variable {bits : UInt32}

/-- A finite pattern is a magnitude under the sign bit. -/
theorem exists_ofBits_eq (finite : exponentField bits < 255) :
    ∃ magnitude, ofBits bits
      = .finite (decide (0x80000000 ≤ bits.toNat)) magnitude :=
  ⟨_, dif_pos finite⟩

/-- A hundredfold of a number, regardless of its sign, is a quotient of
    natural numbers. -/
theorem hundredfold_eq (s : Bool) (units : Nat) :
    100 * |mkRat (signed s units) oneUnits|
      = ((100 * units : Nat) : Rat) / oneUnits := by
  rw [abs_mkRat_signed, cast_oneUnits, Nat.cast_mul, mul_div_assoc,
    Nat.cast_ofNat]

/-- Hundredths keep the order of numbers, whatever their signs are. -/
theorem signed_hundredths_le {s t : Bool} {m n : Magnitude}
    (le : finite s m ≤ finite t n) :
    signed s m.hundredths ≤ signed t n.hundredths := by
  have positions : signed s m.units ≤ signed t n.units :=
    (le_iff_of_position rfl rfl).mp le
  have zero : roundDiv (100 * 0) oneUnits = 0 := by decide
  refine signed_le_signed (f := fun u => roundDiv (100 * u) oneUnits) zero
    ?_ positions
  intro a b a_le
  exact roundDiv_mono oneUnits (Nat.mul_le_mul_left 100 a_le)

end Binary32

open Binary32

namespace Datapoint

variable (datapoint : Datapoint .real)

/-- A real is shown as its text and the unit of its datapoint. -/
theorem text_real (value : Binary32) :
    datapoint.text value = withUnit value.text datapoint.unit := by
  cases datapoint with
  | scaled family => rfl
  | measured family => rfl

/-- Finite numbers are shown as correctly rounded decimals.  The text of a
    finite pattern is a number, a blank and the unit; the number has a minus
    sign exactly where the sign bit is set, its digits spell the whole number
    nearest to a hundredfold of the size, the even one of two that are
    equally near, and that is what is read back.  So the numbers in two
    texts are in the order of the values. -/
theorem text_correctly_rounded :
    (∀ bits : UInt32, exponentField bits < 255 →
      ∃ (value : Rat) (number : List Char) (n : Nat),
        (ofBits bits).toRat? = some value
          ∧ (datapoint.text (ofBits bits)).toList
            = number ++ ' ' :: datapoint.unit.toList
          ∧ Decimal.Spells number (decide (0x80000000 ≤ bits.toNat)) n
          ∧ Decimal.ofText? (datapoint.text (ofBits bits))
            = some ⟨decide (0x80000000 ≤ bits.toNat), n⟩
          ∧ |100 * |value| - n| ≤ 1 / 2
          ∧ (|100 * |value| - n| = 1 / 2 → n % 2 = 0))
      ∧ ∀ a b : UInt32, exponentField a < 255 → exponentField b < 255 →
        ofBits a ≤ ofBits b →
          ∃ p q : Decimal,
            Decimal.ofText? (datapoint.text (ofBits a)) = some p
              ∧ Decimal.ofText? (datapoint.text (ofBits b)) = some q
              ∧ p.value ≤ q.value := by
  constructor
  · intro bits finite
    obtain ⟨magnitude, number_eq⟩ := exists_ofBits_eq finite
    let decimal : Decimal :=
      ⟨decide (0x80000000 ≤ bits.toNat), magnitude.hundredths⟩
    have one_pos : 0 < oneUnits := by decide
    rw [text_real, number_eq]
    refine ⟨_, decimal.toChars, magnitude.hundredths, rfl,
      Decimal.toList_withUnit decimal datapoint.unit,
      Decimal.spells_toChars decimal,
      Decimal.ofText?_withUnit decimal datapoint.unit, ?_, ?_⟩
    · rw [hundredfold_eq]
      exact abs_sub_roundDiv_le one_pos
    · rw [hundredfold_eq]
      exact roundDiv_even_of_half one_pos
  · -- both are rounded alike, so only the order of the sizes is left
    intro a b finite_a finite_b le
    obtain ⟨m, a_eq⟩ := exists_ofBits_eq finite_a
    obtain ⟨n, b_eq⟩ := exists_ofBits_eq finite_b
    rw [a_eq, b_eq] at le
    rw [text_real, text_real, a_eq, b_eq]
    exact ⟨_, _, Decimal.ofText?_withUnit _ datapoint.unit,
      Decimal.ofText?_withUnit _ datapoint.unit,
      Decimal.value_le_value (signed_hundredths_le le)⟩

/-- Two ties, `-0.125` and `0.375`; the first goes to the even `12`. -/
theorem text_correctly_rounded_at_ties :
    exponentField 0xBE000000 < 255 ∧ exponentField 0x3EC00000 < 255
      ∧ ofBits 0xBE000000 ≤ ofBits 0x3EC00000
      ∧ (ofBits 0xBE000000).toRat? = some (-1 / 8)
      ∧ |100 * |(-1 / 8 : Rat)| - (12 : Nat)| = 1 / 2
      ∧ (∃ number, "-0.12 °C".toList = number ++ ' ' :: "°C".toList
        ∧ Decimal.Spells number true 12 ∧ 12 % 2 = 0)
      ∧ ∃ p q : Decimal, Decimal.ofText? "-0.12 °C" = some p
        ∧ Decimal.ofText? "0.38 °C" = some q ∧ p.value ≤ q.value := by
  have finite : exponentField 0xBE000000 < 255 := by decide
  have finite' : exponentField 0x3EC00000 < 255 := by decide
  have le : ofBits 0xBE000000 ≤ ofBits 0x3EC00000 := by decide +kernel
  have down : (measured .temperature).text (ofBits 0xBE000000)
      = "-0.12 °C" := by decide +kernel
  have up : (measured .temperature).text (ofBits 0x3EC00000)
      = "0.38 °C" := by decide +kernel
  have read : Decimal.ofText? "-0.12 °C" = some ⟨true, 12⟩ := by decide
  have eighth : (ofBits 0xBE000000).toRat? = some (-1 / 8) := by
    decide +kernel
  have half : |100 * |(-1 / 8 : Rat)| - (12 : Nat)| = 1 / 2 := by norm_num
  obtain ⟨rounded, ordered⟩ :=
    text_correctly_rounded (measured .temperature)
  obtain ⟨value, number, n, value_eq, chars, spells, back, -, even⟩ :=
    rounded 0xBE000000 finite
  obtain ⟨p, q, p_read, q_read, p_le⟩ := ordered _ _ finite finite' le
  rw [down] at chars back p_read
  rw [up] at q_read
  have same : (-1 / 8 : Rat) = value :=
    Option.some.inj (eighth.symm.trans value_eq)
  have twelve : 12 = n :=
    (Decimal.mk.inj (Option.some.inj (read.symm.trans back))).2
  rw [← same, ← twelve] at even
  rw [← twelve] at spells
  exact ⟨finite, finite', le, eighth, half, ⟨number, chars, spells, even half⟩,
    p, q, p_read, q_read, p_le⟩

/-- The least size under a minus sign, and a carry into the whole part. -/
example : (scaled .angle).text (ofBits 0x80000001) = "-0.00 °"
    ∧ (scaled .angle).text (ofBits 0x3F7FBE77) = "1.00 °" := by
  decide +kernel

end Datapoint

end Fieldbus
