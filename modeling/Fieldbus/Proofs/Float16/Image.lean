import Fieldbus.Proofs.Float16.Drift
import Fieldbus.Proofs.Float16.Fields
import Fieldbus.Proofs.Float16.Quantization

/-! # The image of encoding — which floats are ever sent

    Of the 65536 floats encoding produces those without an exponent and
    those whose mantissa is filled at least by half, except for the topmost
    one.  That no others occur is a property of renormalization: it stops at
    the first exponent that will do, and the greatest value has four
    hundredths too few for the topmost float.

    That all of these occur is shown by a value for each.  The value lies in
    the upper half of the step that its float truncates to, so the quotient
    at the exponent is the mantissa, and the quotient one exponent lower is
    odd and does not fit, even where the mantissa is just half full.  It is
    counted in parts of `2^-8` hundredths of a step, of which a hundredfold
    is exact, so no rounding is involved.

    Two floats of the image have the same value only if they are equal or
    are the two ways to write `-2048` at an exponent. -/

namespace Fieldbus

open Binary32

namespace Float16

/-! ## Floats that occur -/

/-- The floats that are filled at least by half or have no exponent, except
    for the topmost. -/
def Normal (float : Float16) : Prop :=
  ((float.exponent.val = 0
        ∧ -2048 ≤ float.signedMantissa ∧ float.signedMantissa ≤ 2047)
      ∨ (1 ≤ float.exponent.val ∧ float.exponent.val ≤ 15
        ∧ ((1024 ≤ float.signedMantissa ∧ float.signedMantissa ≤ 2047)
          ∨ (-2048 ≤ float.signedMantissa
            ∧ float.signedMantissa ≤ -1024))))
    ∧ ¬ (float.exponent.val = 15 ∧ float.signedMantissa = 2047)

instance (float : Float16) : Decidable (Normal float) :=
  inferInstanceAs (Decidable (_ ∧ _))

/-- The greatest value has too few hundredths for the topmost float. -/
theorem encode_ne_top (value : Binary32) :
    ¬ ((encode value).exponent.val = 15
      ∧ (encode value).signedMantissa = 2047) := by
  rintro ⟨exponent, mantissa⟩
  have most := (hundredths_mem_bounds value).2
  rw [hundredths_bounds.2] at most
  rw [signedMantissa_encode_eq_tdiv, exponent] at mantissa
  have power : (1 : Int) <<< (15 : Nat) = 0x8000 := rfl
  rw [power] at mantissa
  have monotone := Int.tdiv_le_tdiv (by decide : (0 : Int) < 0x8000) most
  rw [mantissa] at monotone
  exact absurd monotone (by decide)

/-- Encoding gives normal floats. -/
theorem normal_encode (value : Binary32) : (encode value).Normal := by
  have mantissa := signedMantissa_mem (encode value)
  have filled := natAbs_signedMantissa_encode_ge value
  have exponent_lt := (encode value).exponent.isLt
  refine ⟨?_, encode_ne_top value⟩
  omega

/-! ## A value for each -/

/-- Parts of a step, 256 to one, of which a hundredfold ends in the upper
    half of the step of a size. -/
def upperParts (size : Nat) : Nat := (128 * (2 * size + 1) + 99) / 100

/-- The hundredfold ends there. -/
theorem upperParts_mem (size : Nat) :
    256 * size + 128 ≤ upperParts size * 100
      ∧ upperParts size * 100 < 256 * (size + 1) := by
  unfold upperParts
  omega

/-- The parts in the bound of a sign, without exponent. -/
def heldParts (negative : Bool) : Nat :=
  if negative then 10737418 <<< 4 else 10732175 <<< 4

/-- The bounds are so many parts. -/
theorem bounds_eq :
    minValue = .finite true ⟨heldParts true <<< 141, by decide⟩
      ∧ maxValue = .finite false ⟨heldParts false <<< 141, by decide⟩ := by
  decide +kernel

variable {negative : Bool} {size exponent : Nat}

/-- The magnitude of the parts that end in the upper half, at an exponent. -/
def upperMagnitude (small : size ≤ 2048)
    (held : upperParts size <<< exponent ≤ heldParts negative) : Magnitude where
  units := upperParts size <<< exponent <<< 141
  representable := by
    have most : heldParts negative ≤ 10737418 <<< 4 := by
      cases negative with
      | false => decide
      | true => decide
    have few := (upperParts_mem size).2
    rw [← Nat.shiftLeft_add]
    refine representable_of_le _ (by omega) ?_
    rw [Nat.shiftLeft_add]
    show _ < 1 <<< 149 <<< 128
    omega

/-- A size that the bound of its sign holds lies between the bounds. -/
theorem signed_mem {most : Bool → Nat} {n : Nat} (held : n ≤ most negative) :
    signed true (most true) ≤ signed negative n
      ∧ signed negative n ≤ signed false (most false) := by
  cases negative with
  | false =>
      show -(most true : Int) ≤ n ∧ (n : Int) ≤ most false
      omega
  | true =>
      show -(most true : Int) ≤ -(n : Int) ∧ -(n : Int) ≤ most false
      omega

/-- Parts that the bound of their sign holds are held. -/
theorem upperMagnitude_mem (small : size ≤ 2048)
    (held : upperParts size <<< exponent ≤ heldParts negative) :
    minValue ≤ .finite negative (upperMagnitude small held)
      ∧ .finite negative (upperMagnitude small held) ≤ maxValue := by
  have units : upperParts size <<< exponent <<< 141
      ≤ heldParts negative <<< 141 := by omega
  have places := @signed_mem negative (fun s => heldParts s <<< 141) _ units
  rw [bounds_eq.1, bounds_eq.2]
  exact ⟨(le_iff_of_position rfl rfl).mpr places.1,
    (le_iff_of_position rfl rfl).mpr places.2⟩

/-- The hundredths of such parts are exact. -/
theorem hundredths_upper (small : size ≤ 2048)
    (held : upperParts size <<< exponent ≤ heldParts negative) :
    hundredths (.finite negative (upperMagnitude small held))
      = signed negative ((upperParts size * 100) <<< exponent / 256) := by
  obtain ⟨least, most⟩ := upperMagnitude_mem small held
  have few := (upperParts_mem size).2
  have product : upperParts size <<< exponent <<< 141 * 100
      = (upperParts size * 100) <<< exponent <<< 141 := by
    simp only [Nat.shiftLeft_eq]
    ac_rfl
  have grid := @ulp_dvd_of_le (upperParts size * 100) (exponent + 141)
    (by omega)
  rw [Nat.shiftLeft_add] at grid
  have whole : (upperParts size * 100) <<< exponent <<< 141 / oneUnits
      = (upperParts size * 100) <<< exponent / 256 := by
    have power : oneUnits = 256 * 2 ^ 141 := by decide
    rw [power, Nat.shiftLeft_eq _ 141]
    exact Nat.mul_div_mul_right _ 256 (Nat.two_pow_pos 141)
  rw [hundredths_finite least most]
  show signed negative
    (roundUnits (upperParts size <<< exponent <<< 141 * 100) 1 / oneUnits) = _
  rw [product, roundUnits_one_of_grid grid, whole]

/-- The exponent cancels. -/
theorem shiftLeft_div_shiftLeft (n e : Nat) :
    n <<< e / 256 / 1 <<< e = n / 256 := by
  rw [Nat.div_div_eq_div_mul, Nat.one_shiftLeft, Nat.shiftLeft_eq]
  exact Nat.mul_div_mul_right n 256 (Nat.two_pow_pos e)

/-- So the value has the quotient of its size, and the one before is odd. -/
theorem upper_div (size exponent : Nat) :
    (upperParts size * 100) <<< exponent / 256 / 1 <<< exponent = size
      ∧ (upperParts size * 100) <<< (exponent + 1) / 256 / 1 <<< exponent
        = 2 * size + 1 := by
  have ends := upperParts_mem size
  constructor
  · rw [shiftLeft_div_shiftLeft]
    omega
  · rw [Nat.shiftLeft_succ_inside, shiftLeft_div_shiftLeft]
    omega

/-- The value is encoded with the exponent and the size. -/
theorem encode_upper (small : size ≤ 2048)
    (held : upperParts size <<< exponent ≤ heldParts negative)
    (fits : Fits (signed negative size))
    (filled : exponent = 0 ∨ 1024 ≤ size) :
    (encode (.finite negative (upperMagnitude small held))).exponent.val
        = exponent
      ∧ (encode (.finite negative
        (upperMagnitude small held))).signedMantissa
        = signed negative size := by
  have quotient := (upper_div size exponent).1
  have taken : (encode (.finite negative
      (upperMagnitude small held))).exponent.val = exponent := by
    refine Nat.le_antisymm ?_ ?_
    · rw [exponent_encode_le_iff, hundredths_upper, signed_tdiv, quotient]
      exact fits
    · cases exponent with
      | zero => exact Nat.zero_le _
      | succ exponent =>
          -- one exponent less would leave an odd quotient above the range
          refine Nat.lt_of_not_le ?_
          rw [exponent_encode_le_iff, hundredths_upper, signed_tdiv,
            (upper_div size exponent).2]
          intro fits_odd
          have bound := fits_odd.natAbs_le
          rw [natAbs_signed] at bound
          omega
  refine ⟨taken, ?_⟩
  rw [signedMantissa_encode_eq_tdiv, taken, hundredths_upper, signed_tdiv,
    quotient]

variable {float : Float16}

/-- The parts for a normal float are held, except for the least float. -/
theorem held_of_normal (normal : float.Normal)
    (not_least : ¬ (float.exponent.val = 15
      ∧ float.signedMantissa = -2048)) :
    upperParts float.signedMantissa.natAbs <<< float.exponent.val
      ≤ heldParts (float.signedMantissa < 0) := by
  have small := natAbs_signedMantissa_le float
  have few := (upperParts_mem float.signedMantissa.natAbs).2
  rcases Nat.lt_or_ge float.exponent.val 15 with low | top
  · have parts : upperParts float.signedMantissa.natAbs ≤ 5245 := by omega
    have power : 2 ^ float.exponent.val ≤ 2 ^ 14 :=
      Nat.pow_le_pow_right (by decide) (Nat.le_of_lt_succ low)
    have least : 5245 * 2 ^ 14 ≤ heldParts (float.signedMantissa < 0) := by
      cases decide (float.signedMantissa < 0) with
      | false => decide
      | true => decide
    rw [Nat.shiftLeft_eq]
    exact Nat.le_trans (Nat.mul_le_mul parts power) least
  · have greatest : float.exponent.val = 15 := by omega
    obtain ⟨ranges, not_top⟩ := normal
    rw [greatest, heldParts]
    split
    · next negative =>
        have := of_decide_eq_true negative
        omega
    · next nonnegative =>
        have := of_decide_eq_false (Bool.eq_false_iff.mpr nonnegative)
        omega

/-- Every normal float is the encoding of some value. -/
theorem exists_encode_eq (normal : float.Normal) :
    ∃ value : Binary32, encode value = float := by
  by_cases least : float.exponent.val = 15 ∧ float.signedMantissa = -2048
  · refine ⟨minValue, ext_signedMantissa (Fin.ext ?_) ?_⟩
    · rw [least.1]
      decide +kernel
    · rw [least.2]
      decide +kernel
  · have small := natAbs_signedMantissa_le float
    have fits := fits_signedMantissa float
    rw [← signed_natAbs float.signedMantissa] at fits
    have filled : float.exponent.val = 0
        ∨ 1024 ≤ float.signedMantissa.natAbs := by
      have ranges := normal.1
      omega
    obtain ⟨exponent, mantissa⟩ :=
      encode_upper small (held_of_normal normal least) fits filled
    rw [signed_natAbs] at mantissa
    exact ⟨_, ext_signedMantissa (Fin.ext exponent) mantissa⟩

/-! ## Floats of one value -/

variable {a b : Float16}

/-- Equal places of one size have one sign, unless they are zero. -/
theorem sign_eq_of_signed_eq {s t : Bool} {n : Nat} (pos : 0 < n)
    (same : signed s n = signed t n) : s = t := by
  cases s with
  | false =>
      cases t with
      | false => rfl
      | true =>
          have places : (n : Int) = -n := same
          omega
  | true =>
      cases t with
      | false =>
          have places : -(n : Int) = n := same
          omega
      | true => rfl

/-- Floats have equal values exactly if they stand for one count. -/
theorem numEq_iff_count_eq (a b : Float16) :
    a.toBinary32.numEq b.toBinary32 = true ↔ a.count = b.count := by
  have places := numEq_iff_of_position (position?_ofCount (natAbs_count_le a))
    (position?_ofCount (natAbs_count_le b))
  rw [← toBinary32_eq, ← toBinary32_eq] at places
  constructor
  · intro same
    have sizes := natAbs_count_eq same
    rw [places, sizes] at same
    rcases Nat.eq_zero_or_pos b.count.natAbs with zero | pos
    · omega
    · have size_pos : 0 < hundredthUnits b.count.natAbs :=
        Nat.lt_of_lt_of_le (by decide +kernel) (hundredthUnits_mono pos)
      have signs := decide_eq_decide.mp (sign_eq_of_signed_eq size_pos same)
      omega
  · intro same
    rw [places, same]

/-- The two ways to write `-2048` at an exponent.  The lower exponent is at
    most 14, since there is one above it. -/
def Twins (low high : Float16) : Prop :=
  low.signedMantissa = -2048 ∧ high.signedMantissa = -1024
    ∧ high.exponent.val = low.exponent.val + 1

/-- Twins stand for one count. -/
theorem Twins.count_eq (twins : Twins a b) : a.count = b.count := by
  obtain ⟨low, high, exponents⟩ := twins
  rw [count, count, low, high, exponents, Int.shiftLeft_succ,
    Int.shiftLeft_eq, Int.shiftLeft_eq]
  omega

/-- Floats of one count, of which the higher one is normal, are equal or
    twins. -/
theorem eq_or_twins_of_count_eq (le : a.exponent.val ≤ b.exponent.val)
    (normal : b.Normal) (same : a.count = b.count) : a = b ∨ Twins a b := by
  have mantissa := signedMantissa_mem a
  have ranges := normal.1
  obtain ⟨above, exponents⟩ := Nat.exists_eq_add_of_le le
  have mantissas : a.signedMantissa = b.signedMantissa * 2 ^ above := by
    have power_pos : (0 : Int) < 2 ^ a.exponent.val :=
      Int.pow_pos (by decide)
    rw [count, count, exponents, Int.shiftLeft_eq, Int.shiftLeft_eq,
      Int.pow_add, Int.mul_comm (2 ^ _), ← Int.mul_assoc] at same
    exact Int.eq_of_mul_eq_mul_right (Int.ne_of_gt power_pos) same
  rcases above with _ | _ | above
  · rw [Int.pow_zero, Int.mul_one] at mantissas
    exact Or.inl (ext_signedMantissa (Fin.ext exponents.symm) mantissas)
  · exact Or.inr (by rw [Twins]; omega)
  · -- two bits up, a mantissa half full is too large already
    have filled : 1024 ≤ b.signedMantissa.natAbs := by omega
    have power : 2 ^ 2 ≤ 2 ^ (above + 1 + 1) :=
      Nat.pow_le_pow_right (by decide) (Nat.le_add_left 2 above)
    have product := Nat.mul_le_mul filled power
    have sizes := congrArg Int.natAbs mantissas
    rw [Int.natAbs_mul, Int.natAbs_pow,
      show (2 : Int).natAbs = 2 by rfl] at sizes
    omega

/-- Normal floats stand for one count exactly if they are equal or twins. -/
theorem Normal.count_eq_iff (normal_a : a.Normal) (normal_b : b.Normal) :
    a.count = b.count ↔ a = b ∨ Twins a b ∨ Twins b a := by
  constructor
  · intro same
    rcases Nat.le_total a.exponent.val b.exponent.val with le | le
    · exact (eq_or_twins_of_count_eq le normal_b same).imp_right Or.inl
    · rcases eq_or_twins_of_count_eq le normal_a same.symm with equal | twins
      · exact Or.inl equal.symm
      · exact Or.inr (Or.inr twins)
  · rintro (equal | twins | twins)
    · rw [equal]
    · exact twins.count_eq
    · exact twins.count_eq.symm

/-- The image of encoding.  A float is the encoding of some value exactly if
    it is normal.  Hence two encodings have equal values exactly if they are
    equal or twins, the one or the other way round. -/
theorem encode_image :
    (∀ float : Float16,
      (∃ value : Binary32, encode value = float) ↔ float.Normal)
      ∧ ∀ u v : Binary32,
        (encode u).toBinary32.numEq (encode v).toBinary32 = true
          ↔ encode u = encode v ∨ Twins (encode u) (encode v)
            ∨ Twins (encode v) (encode u) := by
  constructor
  · intro float
    constructor
    · rintro ⟨value, rfl⟩
      exact normal_encode value
    · exact exists_encode_eq
  · intro u v
    rw [numEq_iff_count_eq]
    exact (normal_encode u).count_eq_iff (normal_encode v)

/-- The topmost float is never sent, the one below it is. -/
example : ¬ (ofParts false 15 2047).Normal ∧ (ofParts false 15 2046).Normal :=
  by decide

end Float16

end Fieldbus
