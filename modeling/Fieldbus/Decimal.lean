/-! # Decimal text with two places

    A decimal is a sign and a whole number of hundredths.  It is written
    with as few digits before the point as the number has, at least one,
    and always two behind it; the sign is written whenever it is negative,
    also before zero.  Reading accepts what is written and nothing with
    superfluous zeros. -/

namespace Fieldbus

/-- A decimal number with two places. -/
structure Decimal where
  negative : Bool
  hundredths : Nat
deriving DecidableEq

namespace Decimal

/-- The digits of a count of hundredths, with a point before the last two. -/
def digits (hundredths : Nat) : List Char :=
  Nat.toDigits 10 (hundredths / 100)
    ++ ['.', Nat.digitChar (hundredths / 10 % 10),
      Nat.digitChar (hundredths % 10)]

/-- The characters of a decimal. -/
def toChars (decimal : Decimal) : List Char :=
  if decimal.negative then '-' :: digits decimal.hundredths
  else digits decimal.hundredths

/-- The text of a decimal. -/
def text (decimal : Decimal) : String := .ofList decimal.toChars

/-- The whole parts that have no superfluous zero. -/
def IsWhole (chars : List Char) : Prop :=
  chars ≠ [] ∧ (chars.head? = some '0' → chars = ['0'])

instance (chars : List Char) : Decidable (IsWhole chars) :=
  inferInstanceAs (Decidable (_ ∧ _))

/-- The hundredths some digits around a point spell. -/
def readDigits? (chars : List Char) : Option Nat :=
  let whole := chars.takeWhile Char.isDigit
  match chars.dropWhile Char.isDigit with
  | ['.', tens, ones] =>
      if IsWhole whole ∧ tens.isDigit ∧ ones.isDigit then
        some (Nat.ofDigitChars 10 (whole ++ [tens, ones]) 0)
      else none
  | _ => none

/-- The decimal some characters spell. -/
def ofChars? : List Char → Option Decimal
  | '-' :: rest => (readDigits? rest).map (⟨true, ·⟩)
  | chars => (readDigits? chars).map (⟨false, ·⟩)

/-- A positive number is not written with a zero in front. -/
theorem head?_toDigits_ne {n : Nat} (pos : 0 < n) :
    (Nat.toDigits 10 n).head? ≠ some '0' := by
  induction n using Nat.strongRecOn with
  | _ n ih =>
      rcases Nat.lt_or_ge n 10 with single | more
      · rw [Nat.toDigits_of_lt_base single]
        match n, pos, single with
        | 1, _, _ | 2, _, _ | 3, _, _ | 4, _, _ | 5, _, _ | 6, _, _
        | 7, _, _ | 8, _, _ | 9, _, _ => decide
      · have upper := ih (n / 10) (by omega) (by omega)
        rw [Nat.toDigits_of_base_le (by decide) more]
        cases front : Nat.toDigits 10 (n / 10) with
        | nil => exact absurd front Nat.toDigits_ne_nil
        | cons c cs =>
            rw [front] at upper
            exact upper

/-- Numbers are written without superfluous zeros. -/
theorem isWhole_toDigits (n : Nat) : IsWhole (Nat.toDigits 10 n) := by
  refine ⟨Nat.toDigits_ne_nil, fun zero => ?_⟩
  rcases Nat.eq_zero_or_pos n with rfl | pos
  · exact Nat.toDigits_zero 10
  · exact absurd zero (head?_toDigits_ne pos)

/-- The last digit of a number is a digit. -/
theorem isDigit_lastDigit (n : Nat) :
    (Nat.digitChar (n % 10)).isDigit = true := by
  rw [Nat.isDigit_digitChar]
  exact decide_eq_true (Nat.mod_lt n (by decide))

/-- The digits around the point spell the hundredths. -/
theorem ofDigitChars_digits (n : Nat) :
    Nat.ofDigitChars 10 (Nat.toDigits 10 (n / 100)
      ++ [Nat.digitChar (n / 10 % 10), Nat.digitChar (n % 10)]) 0 = n := by
  have tens_lt : n / 10 % 10 < 10 := Nat.mod_lt _ (by decide)
  have ones_lt : n % 10 < 10 := Nat.mod_lt _ (by decide)
  rw [Nat.ofDigitChars_append,
    Nat.ofDigitChars_toDigits (by decide) (by decide),
    Nat.ofDigitChars_cons_digitChar_of_lt_ten tens_lt,
    Nat.ofDigitChars_cons_digitChar_of_lt_ten ones_lt]
  show 10 * (10 * (n / 100) + n / 10 % 10) + n % 10 = n
  omega

/-- Written digits read back. -/
theorem readDigits?_digits (n : Nat) : readDigits? (digits n) = some n := by
  have allDigits : ∀ c ∈ Nat.toDigits 10 (n / 100), c.isDigit = true :=
    fun c => Nat.isDigit_of_mem_toDigits (by decide) (by decide)
  have front : (digits n).takeWhile Char.isDigit
      = Nat.toDigits 10 (n / 100) := by
    rw [digits, List.takeWhile_append_of_pos allDigits]
    simp
  have back : (digits n).dropWhile Char.isDigit
      = ['.', Nat.digitChar (n / 10 % 10), Nat.digitChar (n % 10)] := by
    rw [digits, List.dropWhile_append_of_pos allDigits]
    simp
  rw [readDigits?, back]
  simp only [front, isDigit_lastDigit, isWhole_toDigits, and_self, if_true,
    ofDigitChars_digits]

/-- A written decimal reads back. -/
theorem ofChars?_toChars (decimal : Decimal) :
    ofChars? decimal.toChars = some decimal := by
  obtain ⟨negative, hundredths⟩ := decimal
  cases negative with
  | true =>
      show (readDigits? (digits hundredths)).map _ = _
      rw [readDigits?_digits]
      rfl
  | false =>
      -- a digit stands in front, so no sign is taken off
      have unsigned : ∀ rest, digits hundredths ≠ '-' :: rest := by
        intro rest same
        have read := readDigits?_digits hundredths
        rw [same] at read
        simp [readDigits?] at read
      show ofChars? (digits hundredths) = _
      unfold ofChars?
      split
      · exact absurd ‹_› (unsigned _)
      · rw [readDigits?_digits]
        rfl

end Decimal

end Fieldbus
