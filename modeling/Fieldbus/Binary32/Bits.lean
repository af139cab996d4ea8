import Fieldbus.Binary32.Arithmetic

/-! # Binary32 bit patterns

    The interchange form: a sign bit, eight bits of exponent, and
    twenty-three of fraction.  Patterns with the same value share one
    number, and only the patterns of not-a-number are more than one, so
    reading back a written pattern gives the number again. -/

namespace Fieldbus

namespace Binary32

/-- The magnitude of a finite pattern: without exponent the fraction itself,
    otherwise the fraction behind a leading one, doubled for each exponent
    above the first. -/
def fieldUnits (exponent fraction : Nat) : Nat :=
  if exponent = 0 then fraction
  else (0x800000 + fraction) <<< (exponent - 1)

/-- Finite patterns hold representable magnitudes. -/
theorem representable_fieldUnits {exponent fraction : Nat}
    (finite : exponent < 255) (fits : fraction < 0x800000) :
    Representable (fieldUnits exponent fraction) := by
  unfold fieldUnits
  split
  · have bounded : fraction < limitUnits := Nat.lt_trans fits (by decide)
    exact representable_of_le 0 (by omega) bounded
  · refine representable_of_le _ (by omega) ?_
    have scale_le : 2 ^ (exponent - 1) ≤ 2 ^ 253 :=
      Nat.pow_le_pow_right (by decide) (by omega)
    rw [Nat.shiftLeft_eq]
    calc (0x800000 + fraction) * 2 ^ (exponent - 1)
        ≤ (0x800000 + fraction) * 2 ^ 253 := Nat.mul_le_mul_left _ scale_le
      _ < 0x1000000 * 2 ^ 253 :=
          Nat.mul_lt_mul_of_pos_right (by omega) (Nat.two_pow_pos 253)
      _ = limitUnits := by decide

/-- The exponent field of a pattern. -/
def exponentField (bits : UInt32) : Nat := (bits.toNat >>> 23) % 256

/-- The fraction field of a pattern. -/
def fractionField (bits : UInt32) : Nat := bits.toNat % 0x800000

/-- The number a bit pattern stands for. -/
def ofBits (bits : UInt32) : Binary32 :=
  let negative := decide (0x80000000 ≤ bits.toNat)
  if finite : exponentField bits < 255 then
    .finite negative
      ⟨fieldUnits (exponentField bits) (fractionField bits),
        representable_fieldUnits finite (Nat.mod_lt _ (by decide))⟩
  else if fractionField bits = 0 then .infinity negative
  else .nan

/-- The lower 31 bits of a finite number's pattern.  The place of the last
    bit is the exponent less one, and the leading one of the significand,
    where there is one, adds the one back. -/
def magnitudeBits (units : Nat) : Nat :=
  (units.log2 - 23) <<< 23 + units / ulp units

/-- The bit pattern of a number; not-a-number is written quiet and
    positive. -/
def toBits : Binary32 → UInt32
  | .nan => 0x7FC00000
  | .infinity negative => signBit negative + 0x7F800000
  | .finite negative magnitude =>
      signBit negative + UInt32.ofNat (magnitudeBits magnitude.units)
where
  /-- The top bit of a pattern. -/
  signBit (negative : Bool) : UInt32 := if negative then 0x80000000 else 0

/-- Splitting a place and a significand back into fields restores the
    magnitude. -/
theorem fieldUnits_of_significand {place significand : Nat}
    (small : significand < 0x1000000)
    (normal : place = 0 ∨ 0x800000 ≤ significand) :
    fieldUnits ((place <<< 23 + significand) >>> 23)
      ((place <<< 23 + significand) % 0x800000)
      = significand <<< place := by
  rcases Nat.lt_or_ge significand 0x800000 with below | above
  · -- no leading one: the pattern is the magnitude itself
    have place_zero : place = 0 := by omega
    subst place_zero
    have exponent_zero : (0 <<< 23 + significand) >>> 23 = 0 := by omega
    have fraction_self :
        (0 <<< 23 + significand) % 0x800000 = significand := by omega
    rw [exponent_zero, fraction_self, fieldUnits, if_pos rfl]
    rfl
  · have exponent_succ :
        (place <<< 23 + significand) >>> 23 = place + 1 := by omega
    have fraction_rest :
        (place <<< 23 + significand) % 0x800000
          = significand - 0x800000 := by omega
    rw [exponent_succ, fraction_rest, fieldUnits, if_neg (by omega),
      Nat.add_sub_cancel, Nat.add_sub_cancel' above]

/-- A representable magnitude is its significand at its place. -/
theorem div_ulp_shiftLeft (magnitude : Magnitude) :
    (magnitude.units / ulp magnitude.units) <<< (magnitude.units.log2 - 23)
      = magnitude.units := by
  rw [Nat.shiftLeft_eq, ← Nat.one_shiftLeft]
  exact Nat.div_mul_cancel magnitude.representable.2

/-- Above the first binade the significand has all its 24 bits. -/
theorem significand_normal (units : Nat) :
    units.log2 - 23 = 0 ∨ 0x800000 ≤ units / ulp units := by
  rcases Nat.eq_zero_or_pos (units.log2 - 23) with zero | pos
  · exact Or.inl zero
  · refine Or.inr ?_
    have nonzero : units ≠ 0 := by
      intro units_zero
      rw [units_zero, Nat.log2_zero] at pos
      exact absurd pos (by decide)
    rw [Nat.le_div_iff_mul_le (ulp_pos units), ulp, Nat.one_shiftLeft,
      show 0x800000 = 2 ^ 23 by rfl, ← Nat.pow_add]
    refine Nat.le_trans ?_ (Nat.log2_self_le nonzero)
    exact Nat.pow_le_pow_right (by decide) (by omega)

/-- A number below a shifted power of two has at most as many bits. -/
theorem log2_lt_of_lt_shiftLeft {n a b : Nat} (pos : 0 < n)
    (bounded : n < 1 <<< a <<< b) : n.log2 < a + b := by
  rw [Nat.log2_lt (Nat.ne_of_gt pos), ← Nat.one_shiftLeft, Nat.shiftLeft_add]
  exact bounded

/-- No finite number lies above the 253rd place. -/
theorem place_le (magnitude : Magnitude) : magnitude.units.log2 - 23 ≤ 253 := by
  rcases Nat.eq_zero_or_pos magnitude.units with zero | pos
  · rw [zero, Nat.log2_zero]
    decide
  · have := log2_lt_of_lt_shiftLeft pos magnitude.representable.1
    omega

/-- The pattern of a finite number stays below that of the infinities. -/
theorem magnitudeBits_lt (magnitude : Magnitude) :
    magnitudeBits magnitude.units < 0x7F800000 := by
  have small := div_ulp_lt magnitude.units
  have normal := significand_normal magnitude.units
  have place := place_le magnitude
  unfold magnitudeBits
  omega

/-- Sign and size stand side by side in the pattern of a finite number. -/
theorem toNat_toBits_finite (negative : Bool) (magnitude : Magnitude) :
    (toBits (.finite negative magnitude)).toNat
      = (toBits.signBit negative).toNat + magnitudeBits magnitude.units := by
  have bound := magnitudeBits_lt magnitude
  have size : (UInt32.ofNat (magnitudeBits magnitude.units)).toNat
      = magnitudeBits magnitude.units := by
    rw [UInt32.toNat_ofNat']
    omega
  rw [toBits, UInt32.toNat_add, size]
  cases negative with
  | false =>
      show (0 + magnitudeBits magnitude.units) % 2 ^ 32 = 0 + _
      omega
  | true =>
      show (0x80000000 + magnitudeBits magnitude.units) % 2 ^ 32
        = 0x80000000 + _
      omega

/-- The sign bit does not reach into the other fields. -/
theorem fields_of_sum {bits : UInt32} {negative : Bool} {size : Nat}
    (sum : bits.toNat = (toBits.signBit negative).toNat + size)
    (bound : size < 0x80000000) :
    decide (0x80000000 ≤ bits.toNat) = negative
      ∧ exponentField bits = size >>> 23
      ∧ fractionField bits = size % 0x800000 := by
  rw [exponentField, fractionField, sum]
  cases negative with
  | false =>
      show decide (0x80000000 ≤ 0 + size) = false
        ∧ ((0 + size) >>> 23) % 256 = _ ∧ (0 + size) % 0x800000 = _
      rw [decide_eq_false_iff_not]
      omega
  | true =>
      show decide (0x80000000 ≤ 0x80000000 + size) = true
        ∧ ((0x80000000 + size) >>> 23) % 256 = _
        ∧ (0x80000000 + size) % 0x800000 = _
      rw [decide_eq_true_iff]
      omega

/-- Writing a number and reading the pattern gives the number again. -/
theorem ofBits_toBits (x : Binary32) : ofBits (toBits x) = x := by
  cases x with
  | nan => decide
  | infinity negative => cases negative <;> decide
  | finite negative magnitude =>
      have bound := magnitudeBits_lt magnitude
      have restored := fieldUnits_of_significand
        (div_ulp_lt magnitude.units) (significand_normal magnitude.units)
      rw [div_ulp_shiftLeft] at restored
      obtain ⟨sign, exponent, fraction⟩ :=
        fields_of_sum (toNat_toBits_finite negative magnitude) (by omega)
      have finite : exponentField (toBits (.finite negative magnitude))
          < 255 := by
        rw [exponent]
        omega
      unfold ofBits
      rw [dif_pos finite]
      simp only [sign, exponent, fraction]
      congr 2

end Binary32

end Fieldbus
