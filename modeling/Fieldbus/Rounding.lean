/-! # Rounded quotients — a half goes to the even neighbour

    Every inexact step of the library is one rounded quotient of natural
    numbers: binary32 arithmetic rounds to a multiple of the last place,
    and decimal text rounds to hundredths.  The laws below pin the quotient
    down: it is within one half of the exact one from either side, and on
    a tie it is even. -/

namespace Fieldbus

/-- The whole number nearest to `num / den`; of two equally near ones, the
    even one. -/
def roundDiv (num den : Nat) : Nat :=
  let low := num / den
  let rest := num % den
  if 2 * rest < den then low
  else if den < 2 * rest then low + 1
  else low + low % 2

/-- Rounding never falls below the truncated quotient. -/
theorem div_le_roundDiv (num den : Nat) : num / den ≤ roundDiv num den := by
  simp only [roundDiv]
  split
  · exact Nat.le_refl _
  · split <;> omega

/-- Rounding exceeds the truncated quotient by at most one. -/
theorem roundDiv_le_div_succ (num den : Nat) :
    roundDiv num den ≤ num / den + 1 := by
  simp only [roundDiv]
  split
  · omega
  · split <;> omega

/-- The rounded quotient is at most one half too large. -/
theorem roundDiv_mul_le {num den : Nat} (pos : 0 < den) :
    2 * (roundDiv num den * den) ≤ 2 * num + den := by
  have split_num := Nat.div_add_mod num den
  have rest_lt := Nat.mod_lt num pos
  have low_mul : num / den * den = den * (num / den) := Nat.mul_comm _ _
  have succ_mul : (num / den + 1) * den = den * (num / den) + den := by
    rw [Nat.add_mul, low_mul, Nat.one_mul]
  simp only [roundDiv]
  split
  · omega
  · split
    · omega
    · rcases Nat.mod_two_eq_zero_or_one (num / den) with even | odd
      · rw [even, Nat.add_zero]
        omega
      · rw [odd]
        omega

/-- The rounded quotient is at most one half too small. -/
theorem le_roundDiv_mul {num den : Nat} (pos : 0 < den) :
    2 * num ≤ 2 * (roundDiv num den * den) + den := by
  have split_num := Nat.div_add_mod num den
  have rest_lt := Nat.mod_lt num pos
  have low_mul : num / den * den = den * (num / den) := Nat.mul_comm _ _
  have succ_mul : (num / den + 1) * den = den * (num / den) + den := by
    rw [Nat.add_mul, low_mul, Nat.one_mul]
  simp only [roundDiv]
  split
  · omega
  · split
    · omega
    · rcases Nat.mod_two_eq_zero_or_one (num / den) with even | odd
      · rw [even, Nat.add_zero]
        omega
      · rw [odd]
        omega

/-- An exact half goes to the even neighbour. -/
theorem roundDiv_even_of_tie {num den : Nat} (tie : 2 * (num % den) = den) :
    roundDiv num den % 2 = 0 := by
  simp only [roundDiv]
  split
  · omega
  · split <;> omega

/-- A whole quotient is kept. -/
theorem roundDiv_mul_self (n : Nat) {den : Nat} (pos : 0 < den) :
    roundDiv (n * den) den = n := by
  simp only [roundDiv, Nat.mul_mod_left, Nat.mul_zero, if_pos pos]
  exact Nat.mul_div_cancel n pos

end Fieldbus
