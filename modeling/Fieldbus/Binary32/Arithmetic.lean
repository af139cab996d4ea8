import Fieldbus.Binary32.Basic

/-! # Binary32 arithmetic — one rounding per operation

    A product or quotient is formed exactly, as a ratio of natural numbers
    counted in least steps, and rounded once to the nearest representable
    magnitude, a half going to the even significand.  A result that rounds
    to `2^128` or beyond is an infinity. -/

namespace Fieldbus

namespace Binary32

/-- The ratio `num / den` of least steps, rounded to a multiple of the unit
    in the last place of its own binade. -/
def roundUnits (num den : Nat) : Nat :=
  let place := ulp (num / den)
  roundDiv num (den * place) * place

/-- A number holds at most 24 bits above its unit in the last place. -/
theorem div_ulp_lt (units : Nat) : units / ulp units < 0x1000000 := by
  refine Nat.div_lt_of_lt_mul ?_
  rw [ulp, Nat.one_shiftLeft, show 0x1000000 = 2 ^ 24 by rfl,
    ← Nat.pow_add]
  refine Nat.lt_of_lt_of_le Nat.lt_log2_self ?_
  exact Nat.pow_le_pow_right (by decide) (by omega)

/-- Rounding carries at most to `2^24` units in the last place. -/
theorem roundDiv_ulp_le (num den : Nat) :
    roundDiv num (den * ulp (num / den)) ≤ 0x1000000 := by
  refine Nat.le_trans (roundDiv_le_div_succ _ _) ?_
  rw [← Nat.div_div_eq_div_mul]
  exact div_ulp_lt (num / den)

/-- Below the limit, rounding gives a representable magnitude. -/
theorem representable_roundUnits {num den : Nat}
    (bounded : roundUnits num den < limitUnits) :
    Representable (roundUnits num den) := by
  have shifted : roundUnits num den
      = roundDiv num (den * ulp (num / den)) <<< ((num / den).log2 - 23) := by
    rw [roundUnits, Nat.shiftLeft_eq, ← Nat.one_shiftLeft]
    rfl
  rw [shifted] at bounded ⊢
  exact representable_of_le _ (roundDiv_ulp_le num den) bounded

/-- The binary32 number nearest to `num / den` least steps. -/
def ofUnitRatio (negative : Bool) (num den : Nat) : Binary32 :=
  if bounded : roundUnits num den < limitUnits then
    .finite negative ⟨roundUnits num den, representable_roundUnits bounded⟩
  else .infinity negative

/-- The binary32 number nearest to `num / den`. -/
def ofRatio (negative : Bool) (num den : Nat) : Binary32 :=
  ofUnitRatio negative (num * oneUnits) den

/-- The binary32 number nearest to a natural number. -/
def ofNat (n : Nat) : Binary32 := ofRatio false n 1

/-- The binary32 number nearest to a whole number; zero is positive. -/
def ofInt (n : Int) : Binary32 := ofRatio (n < 0) n.natAbs 1

instance (n : Nat) : OfNat Binary32 n := ⟨ofNat n⟩

/-- A decimal literal stands for the nearest binary32 number. -/
instance : OfScientific Binary32 where
  ofScientific digits places exponent :=
    if places then ofRatio false digits (Nat.pow 10 exponent)
    else ofNat (digits * Nat.pow 10 exponent)

/-- The rounded product.  A zero times an infinity is not a number. -/
def mul : Binary32 → Binary32 → Binary32
  | .nan, _ => .nan
  | _, .nan => .nan
  | .infinity s, .infinity t => .infinity (s != t)
  | .infinity s, .finite t m =>
      if m.units = 0 then .nan else .infinity (s != t)
  | .finite s m, .infinity t =>
      if m.units = 0 then .nan else .infinity (s != t)
  | .finite s m, .finite t n =>
      ofUnitRatio (s != t) (m.units * n.units) oneUnits

instance : Mul Binary32 := ⟨mul⟩

/-- The rounded quotient.  A zero over a zero and an infinity over an
    infinity are not numbers; any other number over a zero is infinite. -/
def div : Binary32 → Binary32 → Binary32
  | .nan, _ => .nan
  | _, .nan => .nan
  | .infinity _, .infinity _ => .nan
  | .infinity s, .finite t _ => .infinity (s != t)
  | .finite s _, .infinity t => .finite (s != t) .zero
  | .finite s m, .finite t n =>
      if n.units = 0 then
        if m.units = 0 then .nan else .infinity (s != t)
      else ofUnitRatio (s != t) (m.units * oneUnits) n.units

instance : Div Binary32 := ⟨div⟩

end Binary32

end Fieldbus
