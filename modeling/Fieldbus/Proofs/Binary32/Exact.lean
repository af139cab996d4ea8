import Mathlib.Algebra.Order.Ring.Rat
import Mathlib.Tactic.NormNum
import Mathlib.Tactic.Positivity
import Mathlib.Tactic.Ring
import Fieldbus.Binary32.Value
import Fieldbus.Proofs.Binary32.Scaling

/-! # The rational numbers that binary32 numbers stand for

    A finite number is its least steps over `2^149`, under its sign.  From
    this one formula come the sign and the size of the rational number, the
    values of whole numbers, and the distance between a number and a
    fraction of the same sign, which is where every bound on an error
    ends. -/

namespace Fieldbus

namespace Binary32

/-- The least steps in one, as a rational number. -/
theorem cast_oneUnits : (oneUnits : Rat) = 2 ^ 149 := by
  rw [oneUnits, Nat.one_shiftLeft]
  norm_cast

/-- The rational number of a size, in parts of one. -/
theorem mkRat_signed (s : Bool) (n : Nat) :
    mkRat (signed s n) oneUnits
      = if s then -((n : Rat) / 2 ^ 149) else (n : Rat) / 2 ^ 149 := by
  rw [Rat.mkRat_eq_div, cast_oneUnits]
  cases s with
  | false =>
      show ((n : Int) : Rat) / 2 ^ 149 = (n : Rat) / 2 ^ 149
      rw [Int.cast_natCast]
  | true =>
      show ((-(n : Int) : Int) : Rat) / 2 ^ 149 = -((n : Rat) / 2 ^ 149)
      rw [Int.cast_neg, Int.cast_natCast, neg_div]

/-- The size of a rational number. -/
theorem abs_mkRat_signed (s : Bool) (n : Nat) :
    |mkRat (signed s n) oneUnits| = (n : Rat) / 2 ^ 149 := by
  have nonneg : 0 ≤ (n : Rat) / 2 ^ 149 := by positivity
  rw [mkRat_signed]
  cases s with
  | false => exact abs_of_nonneg nonneg
  | true =>
      rw [if_pos rfl, abs_neg]
      exact abs_of_nonneg nonneg

/-- Numbers of one sign, or a zero, stand for such rational numbers. -/
theorem mkRat_sign {s t : Bool} {m n : Nat} (sign : n = 0 ∨ t = s)
    (le : n ≤ m) :
    mkRat (signed t n) oneUnits = 0
      ∨ (0 < mkRat (signed s m) oneUnits ∧ 0 < mkRat (signed t n) oneUnits)
      ∨ (mkRat (signed s m) oneUnits < 0 ∧ mkRat (signed t n) oneUnits < 0) := by
  rw [mkRat_signed, mkRat_signed]
  rcases Nat.eq_zero_or_pos n with rfl | pos
  · refine Or.inl ?_
    rw [Nat.cast_zero, zero_div, neg_zero, ite_self]
  · have same : t = s := sign.resolve_left (Nat.ne_of_gt pos)
    have part_pos : 0 < (n : Rat) / 2 ^ 149 := by positivity
    have whole_pos : 0 < (m : Rat) / 2 ^ 149 := by
      have : 0 < m := Nat.lt_of_lt_of_le pos le
      positivity
    rw [same]
    cases s with
    | false => exact Or.inr (Or.inl ⟨whole_pos, part_pos⟩)
    | true =>
        exact Or.inr (Or.inr ⟨neg_lt_zero.mpr whole_pos,
          neg_lt_zero.mpr part_pos⟩)

/-- A signed size as a rational number. -/
theorem cast_signed (s : Bool) (n : Nat) :
    ((signed s n : Int) : Rat) = if s then -(n : Rat) else (n : Rat) := by
  cases s with
  | false => exact Int.cast_natCast n
  | true =>
      show ((-(n : Int) : Int) : Rat) = -(n : Rat)
      rw [Int.cast_neg, Int.cast_natCast]

/-- From a fraction of the same sign a number is as far as their sizes are
    apart. -/
theorem abs_mkRat_signed_sub (s : Bool) (units n den : Nat) :
    |mkRat (signed s units) oneUnits - ((signed s n : Int) : Rat) / den|
      = |(units : Rat) / 2 ^ 149 - (n : Rat) / den| := by
  rw [mkRat_signed, cast_signed]
  cases s with
  | false => rfl
  | true =>
      have opposite : -((units : Rat) / 2 ^ 149) - -(n : Rat) / den
          = -((units : Rat) / 2 ^ 149 - n / den) := by ring
      rw [if_pos rfl, if_pos rfl, opposite, abs_neg]

/-- Whole numbers of up to 24 bits stand for themselves. -/
theorem toRat?_whole (s : Bool) {n : Nat} (small : n ≤ 0x1000000) :
    (finite s (.whole n small)).toRat? = some ((signed s n : Int) : Rat) := by
  have scaled : ((n <<< 149 : Nat) : Rat) / 2 ^ 149 = n := by
    rw [Nat.shiftLeft_eq, Nat.cast_mul, Nat.cast_pow, Nat.cast_two]
    exact mul_div_cancel_right₀ _ (by positivity)
  show some (mkRat (signed s (n <<< 149)) oneUnits) = _
  rw [mkRat_signed, cast_signed, scaled]

end Binary32

end Fieldbus
