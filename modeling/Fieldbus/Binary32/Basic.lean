import Fieldbus.Rounding

/-! # Binary32 numbers — exact multiples of the least subnormal

    Every finite binary32 number is a whole multiple of `2^-149`.  A
    magnitude is held as that multiple, so order, arithmetic and decimal
    text are statements about natural numbers and no rounding hides in the
    representation.  Zero keeps its sign; the payloads of the not-a-number
    patterns are not distinguished, because no operation can tell them
    apart. -/

namespace Fieldbus

namespace Binary32

/-- The least steps in one: `1 = 2^149 · 2^-149`. -/
def oneUnits : Nat := 1 <<< 149

/-- The least steps in `2^128`, where the finite numbers end. -/
def limitUnits : Nat := oneUnits <<< 128

/-- The unit in the last place: the distance, in least steps, between
    neighbouring numbers in the binade of `units`.  Below `2^24` least steps
    every whole number is present; above, 24 bits are kept. -/
def ulp (units : Nat) : Nat := 1 <<< (units.log2 - 23)

/-- The multiples of `2^-149` that are binary32 magnitudes: at most 24
    significant bits, below `2^128`. -/
def Representable (units : Nat) : Prop :=
  units < limitUnits ∧ ulp units ∣ units

instance (units : Nat) : Decidable (Representable units) :=
  inferInstanceAs (Decidable (_ ∧ _))

/-- The unit in the last place is positive. -/
theorem ulp_pos (units : Nat) : 0 < ulp units := by
  rw [ulp, Nat.one_shiftLeft]
  exact Nat.two_pow_pos _

/-- A significand of at most 24 bits, or `2^24` itself, is a multiple of the
    last place at every scale. -/
theorem ulp_dvd_of_le {significand : Nat} (scale : Nat)
    (small : significand ≤ 0x1000000) :
    ulp (significand <<< scale) ∣ significand <<< scale := by
  have scale_pos : 0 < 2 ^ scale := Nat.two_pow_pos scale
  rw [ulp, Nat.one_shiftLeft, Nat.shiftLeft_eq]
  rcases Nat.eq_zero_or_pos significand with zero | pos
  · rw [zero, Nat.zero_mul]
    exact Nat.dvd_zero _
  · have nonzero : significand * 2 ^ scale ≠ 0 :=
      Nat.ne_of_gt (Nat.mul_pos pos scale_pos)
    rcases Nat.lt_or_eq_of_le small with below | top
    · -- fewer than 25 bits: the last place is at most the scale itself
      have bound : significand * 2 ^ scale < 2 ^ (24 + scale) := by
        rw [Nat.pow_add]
        exact Nat.mul_lt_mul_of_pos_right below scale_pos
      have log_lt := (Nat.log2_lt nonzero).mpr bound
      refine Nat.dvd_trans (Nat.pow_dvd_pow 2 ?_) (Nat.dvd_mul_left _ _)
      omega
    · -- the significand is a power of two, so every smaller one divides it
      have power : significand * 2 ^ scale = 2 ^ (24 + scale) := by
        rw [top, Nat.pow_add]
      rw [power, Nat.log2_two_pow]
      exact Nat.pow_dvd_pow 2 (by omega)

/-- Significands of at most 24 bits are representable below the limit. -/
theorem representable_of_le {significand : Nat} (scale : Nat)
    (small : significand ≤ 0x1000000)
    (bounded : significand <<< scale < limitUnits) :
    Representable (significand <<< scale) :=
  ⟨bounded, ulp_dvd_of_le scale small⟩

/-- The size of a finite binary32 number, in least steps. -/
structure Magnitude where
  units : Nat
  representable : Representable units
deriving DecidableEq

/-- The magnitude of the two zeros. -/
def Magnitude.zero : Magnitude := ⟨0, by decide⟩

end Binary32

open Binary32

/-- A binary32 number: a signed magnitude, an infinity, or not a number. -/
inductive Binary32 where
  | nan
  | infinity (negative : Bool)
  | finite (negative : Bool) (magnitude : Magnitude)
deriving DecidableEq

namespace Binary32

/-- Positive zero. -/
def zero : Binary32 := .finite false .zero

instance : Inhabited Binary32 := ⟨zero⟩

/-- The opposite number; not-a-number has none but itself. -/
def neg : Binary32 → Binary32
  | .nan => .nan
  | .infinity negative => .infinity (!negative)
  | .finite negative magnitude => .finite (!negative) magnitude

instance : Neg Binary32 := ⟨neg⟩

/-- A natural number under a sign. -/
def signed (negative : Bool) (size : Nat) : Int :=
  if negative then -(size : Int) else size

/-- The place on the number line, in least steps.  The infinities sit where
    the finite numbers end; not-a-number has no place. -/
def position? : Binary32 → Option Int
  | .nan => none
  | .infinity negative => some (signed negative limitUnits)
  | .finite negative magnitude => some (signed negative magnitude.units)

/-- How two numbers compare; `none` when one of them is not a number.  The
    two zeros are equal. -/
def compare? (x y : Binary32) : Option Ordering :=
  match x.position?, y.position? with
  | some a, some b => some (compare a b)
  | _, _ => none

instance : LT Binary32 := ⟨fun x y => x.compare? y = some .lt⟩

instance : LE Binary32 :=
  ⟨fun x y => x.compare? y = some .lt ∨ x.compare? y = some .eq⟩

instance (x y : Binary32) : Decidable (x < y) :=
  inferInstanceAs (Decidable (x.compare? y = some .lt))

instance (x y : Binary32) : Decidable (x ≤ y) :=
  inferInstanceAs (Decidable (_ ∨ _))

/-- Numerical equality: the zeros agree, not-a-number agrees with nothing. -/
def numEq (x y : Binary32) : Bool := x.compare? y == some .eq

/-- The number itself inside the bounds, else the nearer bound.
    Not-a-number is neither below nor above and stays. -/
def clamp (x lo hi : Binary32) : Binary32 :=
  let raised := if x < lo then lo else x
  if hi < raised then hi else raised

/-- The whole part, toward zero, held between `lo` and `hi`; not-a-number
    counts as zero. -/
def truncate (lo hi : Int) : Binary32 → Int
  | .nan => 0
  | .infinity negative => if negative then lo else hi
  | .finite negative magnitude =>
      max lo (min hi (signed negative (magnitude.units / oneUnits)))

end Binary32

end Fieldbus
