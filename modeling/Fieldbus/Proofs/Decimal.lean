import Fieldbus.Datapoint.Text
import Fieldbus.Proofs.Binary32.Exact

/-! # The number in a text

    A number is shown with a blank and a unit behind it.  A decimal has no
    blank among its characters, so what stands before the first one is all
    of it, and reading it gives the decimal that was written.

    Its value is its hundredths over one hundred, under its sign: decimals
    of one sign are as far apart as their hundredths. -/

namespace Fieldbus

namespace Decimal

/-- The rational number of a decimal. -/
def value (decimal : Decimal) : Rat :=
  mkRat (Binary32.signed decimal.negative decimal.hundredths) 100

/-- The decimal that stands before the unit. -/
def ofText? (text : String) : Option Decimal :=
  ofChars? (text.toList.takeWhile (· != ' '))

/-! ## Reading -/

/-- Digits are not blanks. -/
theorem ne_blank_of_isDigit {c : Char} (digit : c.isDigit = true) :
    c ≠ ' ' := by
  rintro rfl
  exact absurd digit (by decide)

/-- The digits around a point have no blank among them. -/
theorem ne_blank_of_mem_digits {n : Nat} {c : Char} (mem : c ∈ digits n) :
    c ≠ ' ' := by
  rw [digits, List.mem_append, List.mem_cons, List.mem_cons,
    List.mem_singleton] at mem
  rcases mem with whole | rfl | rfl | rfl
  · exact ne_blank_of_isDigit
      (Nat.isDigit_of_mem_toDigits (by decide) (by decide) whole)
  · decide
  · exact ne_blank_of_isDigit (isDigit_lastDigit (n / 10))
  · exact ne_blank_of_isDigit (isDigit_lastDigit n)

/-- A decimal has no blank among its characters. -/
theorem ne_blank_of_mem_toChars {decimal : Decimal} {c : Char}
    (mem : c ∈ decimal.toChars) : c ≠ ' ' := by
  rw [toChars] at mem
  split at mem
  · rcases List.mem_cons.mp mem with rfl | digit
    · decide
    · exact ne_blank_of_mem_digits digit
  · exact ne_blank_of_mem_digits mem

/-- A decimal with a unit has a blank between the two. -/
theorem toList_withUnit (decimal : Decimal) (unit : String) :
    (withUnit decimal.text unit).toList
      = decimal.toChars ++ ' ' :: unit.toList := by
  rw [withUnit, text, String.toList_append, String.toList_append,
    String.toList_ofList, List.append_assoc]
  rfl

/-- A decimal before a unit is read as it was written. -/
theorem ofText?_withUnit (decimal : Decimal) (unit : String) :
    ofText? (withUnit decimal.text unit) = some decimal := by
  have inside : ∀ c ∈ decimal.toChars, (c != ' ') = true := by
    intro c mem
    exact bne_iff_ne.mpr (ne_blank_of_mem_toChars mem)
  -- the blank itself ends the number
  have ended : (' ' :: unit.toList).takeWhile (· != ' ') = [] := rfl
  rw [ofText?, toList_withUnit, List.takeWhile_append_of_pos inside, ended,
    List.append_nil]
  exact ofChars?_toChars decimal

/-! ## Distance -/

/-- Decimals of one sign are no further apart than their hundredths. -/
theorem abs_value_sub_le (decimal : Decimal) {n c : Nat}
    (above : decimal.hundredths ≤ n + c)
    (below : n ≤ decimal.hundredths + c) :
    |decimal.value - ((Binary32.signed decimal.negative n : Int) : Rat) / 100|
      ≤ (c : Rat) / 100 := by
  have apart : |Binary32.signed decimal.negative decimal.hundredths
      - Binary32.signed decimal.negative n| ≤ (c : Int) := by
    rw [Binary32.signed, Binary32.signed, abs_le]
    split
    · constructor
      · omega
      · omega
    · constructor
      · omega
      · omega
  have apart_rat : |((Binary32.signed decimal.negative decimal.hundredths
      : Int) : Rat) - (Binary32.signed decimal.negative n : Int)|
      ≤ (c : Rat) := by exact_mod_cast apart
  have hundred_pos : (0 : Rat) < 100 := by positivity
  rw [value, Rat.mkRat_eq_div, Nat.cast_ofNat, ← sub_div, abs_div,
    abs_of_pos hundred_pos]
  exact div_le_div_of_nonneg_right apart_rat (le_of_lt hundred_pos)

end Decimal

end Fieldbus
