import Fieldbus.Proofs.Float16.ClosedForm
import Fieldbus.Proofs.Float16.Wire

/-! # Fields and frames — a float for every two bytes

    Behind its header a frame holds a word of sixteen bits, and the fields of
    a float are the digits of that word.  So floats and frames with an empty
    header are in bijection: that a float is read back from its frame is the
    law of disjoint fields, and that a frame is written back from its float
    is shown bit by bit, each bit of the upper byte lying in one field.

    The mantissa under its sign is the number that the sign and the lower
    eleven bits spell in two's complement.  No width is exceeded on the way,
    whichever way the float was made. -/

namespace Fieldbus

/-- A single bit as a flag, and the flag as a number again. -/
theorem toNat_beq_one {bit : UInt8} (single : bit.toNat < 2) :
    (bit == 1).toNat = bit.toNat := by
  rw [← toUInt8_beq_one single, beq_one_toUInt8]
  cases bit == 1 with
  | false => rfl
  | true => rfl

namespace Float16

/-- The fields of a float are the digits of a word: one bit of sign, four of
    exponent, and eleven of mantissa. -/
structure HasFields (float : Float16) (word : Nat) : Prop where
  sign : float.negative.toNat = word >>> 15
  exponent : float.exponent.val = (word >>> 11) % 16
  mantissa : float.mantissa.val = word % 2048

/-! ## Reading a frame and writing it -/

variable (head high low : UInt8)

/-- The fields of a float are read from the word behind the header. -/
theorem hasFields_ofFrame :
    (ofFrame (.float16 head high low)).HasFields
      (256 * high.toNat + low.toNat) := by
  have low_lt := low.toNat_lt
  have high_lt := high.toNat_lt
  have sign : (Placement.sign.read high).toNat = (high.toNat >>> 7) % 2 :=
    Placement.sign.toNat_read high
  have exponent : (Placement.exponent.read high).toNat
      = (high.toNat >>> 3) % 16 := Placement.exponent.toNat_read high
  have top : (Placement.mantissaTop.read high).toNat
      = (high.toNat >>> 0) % 8 := Placement.mantissaTop.toNat_read high
  refine ⟨?_, ?_, ?_⟩
  · show (Placement.sign.read high == 1).toNat = _
    rw [toNat_beq_one (Placement.sign.toNat_read_lt high)]
    omega
  · show (Placement.exponent.read high).toNat = _
    omega
  · show (Placement.mantissaTop.read high).toNat <<< 8 + low.toNat = _
    omega

/-- The byte shared by the three fields is written back as it was read. -/
theorem highByte_ofFrame :
    (ofFrame (.float16 head high low)).highByte = high := by
  have low_lt := low.toNat_lt
  have sign : (Placement.sign.read high == 1).toUInt8
      = Placement.sign.read high :=
    toUInt8_beq_one (Placement.sign.toNat_read_lt high)
  have mantissa : ((Placement.mantissaTop.read high).toNat <<< 8
      + low.toNat) >>> 8 = (Placement.mantissaTop.read high).toNat := by
    omega
  show Placement.mantissaTop.write
      (Placement.exponent.write
        (Placement.sign.write 0 (Placement.sign.read high == 1).toUInt8)
        (.ofNat (Placement.exponent.read high).toNat))
      (.ofNat (((Placement.mantissaTop.read high).toNat <<< 8
        + low.toNat) >>> 8)) = high
  rw [sign, mantissa, UInt8.ofNat_toNat, UInt8.ofNat_toNat]
  refine byte_ext fun i inside => ?_
  rw [BitField.bitAt_write_read _ _ _ inside,
    BitField.bitAt_write_read _ _ _ inside,
    BitField.bitAt_write_read _ _ _ inside]
  -- every bit lies in one of the three fields
  show (if 0 ≤ i ∧ i < 0 + 3 then bitAt high i
      else if 3 ≤ i ∧ i < 3 + 4 then bitAt high i
      else if 7 ≤ i ∧ i < 7 + 1 then bitAt high i else bitAt 0 i)
    = bitAt high i
  by_cases mantissa : i < 3
  · rw [if_pos (by omega)]
  · by_cases exponent : i < 7
    · rw [if_neg (by omega), if_pos (by omega)]
    · rw [if_neg (by omega), if_neg (by omega), if_pos (by omega)]

/-- The lower byte is written back as it was read. -/
theorem lowByte_ofFrame :
    (ofFrame (.float16 head high low)).lowByte = low := by
  have low_lt := low.toNat_lt
  apply UInt8.toNat_inj.mp
  show (UInt8.ofNat
    ((Placement.mantissaTop.read high).toNat <<< 8 + low.toNat)).toNat = _
  rw [UInt8.toNat_ofNat']
  omega

/-- A frame is written back from its float, with an empty header. -/
theorem toFrame_ofFrame :
    (ofFrame (.float16 head high low)).toFrame = .float16 0 high low := by
  rw [toFrame, highByte_ofFrame, lowByte_ofFrame]
  rfl

/-! ## The mantissa under its sign -/

variable (float : Float16)

/-- Sign and mantissa spell the mantissa under its sign in two's
    complement. -/
theorem signedMantissa_eq_bmod :
    float.signedMantissa
      = Int.bmod (2048 * float.negative.toNat + float.mantissa.val) 4096 := by
  have bound := float.mantissa.isLt
  rw [signedMantissa, Int.bmod_def]
  cases float.negative with
  | false =>
      simp only [Bool.toNat_false, Bool.false_eq_true, if_false]
      omega
  | true =>
      simp only [Bool.toNat_true, if_true]
      omega

/-- The sign is that of the mantissa. -/
theorem negative_eq : float.negative = decide (float.signedMantissa < 0) := by
  have bound := float.mantissa.isLt
  rw [signedMantissa]
  cases float.negative with
  | false => exact (decide_eq_false (by simp)).symm
  | true =>
      refine (decide_eq_true ?_).symm
      simp only [if_true]
      omega

/-- A float is told by its exponent and its mantissa under its sign. -/
theorem ext_signedMantissa {a b : Float16}
    (exponents : a.exponent = b.exponent)
    (mantissas : a.signedMantissa = b.signedMantissa) : a = b := by
  have signs : a.negative = b.negative := by
    rw [negative_eq, negative_eq, mantissas]
  have fields : (a.mantissa.val : Int) = b.mantissa.val := by
    rw [mantissa_eq_fold, mantissa_eq_fold, mantissas]
  obtain ⟨negative, exponent, mantissa⟩ := a
  rw [Float16.mk.injEq]
  exact ⟨signs, exponents, Fin.ext (Int.ofNat_inj.mp fields)⟩

/-! ## Loose fields -/

/-- Loose fields keep their lower bits. -/
theorem ofParts_eq (negative : Bool) (exponent : UInt8) (mantissa : UInt16) :
    (ofParts negative exponent mantissa).negative = negative
      ∧ (ofParts negative exponent mantissa).exponent.val
        = (exponent &&& 0x0F).toNat
      ∧ (ofParts negative exponent mantissa).mantissa.val
        = (mantissa &&& 0x07FF).toNat := by
  refine ⟨rfl, ?_, ?_⟩
  · rw [UInt8.toNat_and]
    exact (Nat.and_two_pow_sub_one_eq_mod exponent.toNat 4).symm
  · rw [UInt16.toNat_and]
    exact (Nat.and_two_pow_sub_one_eq_mod mantissa.toNat 11).symm

/-- A float is made again from its own fields. -/
theorem ofParts_fields :
    ofParts float.negative (.ofNat float.exponent) (.ofNat float.mantissa)
      = float := by
  have exponent_lt := float.exponent.isLt
  have mantissa_lt := float.mantissa.isLt
  obtain ⟨negative, exponent, mantissa⟩ := float
  rw [ofParts, Float16.mk.injEq]
  refine ⟨rfl, Fin.ext ?_, Fin.ext ?_⟩
  · show (UInt8.ofNat exponent.val).toNat % 16 = exponent.val
    rw [UInt8.toNat_ofNat']
    omega
  · show (UInt16.ofNat mantissa.val).toNat % 2048 = mantissa.val
    rw [UInt16.toNat_ofNat']
    omega

/-! ## Widths -/

/-- No field is cut when it is used: the power of the exponent has room in a
    word of 32 bits, and each field in the bits it is written to. -/
structure Uncut (float : Float16) : Prop where
  power : ((1 : UInt32) <<< UInt32.ofNat float.exponent).toNat
    = 1 <<< float.exponent.val
  sign : (Placement.sign.read float.highByte).toNat = float.negative.toNat
  exponent : (Placement.exponent.read float.highByte).toNat
    = float.exponent.val
  mantissaTop : (Placement.mantissaTop.read float.highByte).toNat
    = float.mantissa.val >>> 8
  mantissaLow : float.lowByte.toNat = float.mantissa.val % 256

/-- Whatever the fields are, none is cut. -/
theorem uncut : float.Uncut := by
  have exponent_lt := float.exponent.isLt
  have mantissa_lt := float.mantissa.isLt
  have powers : ∀ e : Fin 16,
      ((1 : UInt32) <<< UInt32.ofNat e).toNat = 1 <<< e.val := by decide
  refine ⟨powers float.exponent, ?_, ?_, ?_, ?_⟩
  · rw [read_sign]
    cases float.negative with
    | false => rfl
    | true => rfl
  · rw [read_exponent, UInt8.toNat_ofNat']
    omega
  · rw [read_mantissaTop, UInt8.toNat_ofNat']
    omega
  · exact UInt8.toNat_ofNat'

/-! ## All ways to a float -/

/-- An encoded value has the renormalized count in its fields, negative
    mantissas 2048 above. -/
theorem fields_encode (value : Binary32) :
    let counted := renormalize maxExponent (hundredths value)
    (encode value).negative = decide (counted.2 < 0)
      ∧ (encode value).exponent = counted.1
      ∧ ((encode value).mantissa.val : Int)
        = if counted.2 < 0 then counted.2 + 2048 else counted.2 := by
  intro counted
  have mantissa : (encode value).signedMantissa = counted.2 :=
    signedMantissa_encode value
  refine ⟨?_, exponent_encode value, ?_⟩
  · rw [negative_eq, mantissa]
  · rw [mantissa_eq_fold, mantissa]

/-- Data of three bytes is decoded to the float whose fields are its word,
    and that float is written as the same word. -/
theorem exists_decode :
    ∃ float : Float16, decode [head, high, low] = pure float
      ∧ float.toFrame.toBytes = [0, high, low]
      ∧ float.HasFields (256 * high.toNat + low.toNat) := by
  refine ⟨ofFrame (.float16 head high low), rfl, ?_,
    hasFields_ofFrame head high low⟩
  rw [toFrame_ofFrame]
  rfl

/-- Floats and frames with an empty header are in bijection, and every way
    to a float ends inside its fields.  Loose fields keep their lower bits,
    an encoded value has the fields of the count it was renormalized to, and
    a frame those of its word.  Each float is read back from its frame and
    made again from its fields; its mantissa under its sign is the two's
    complement number of sign and mantissa; and no field is cut when it is
    used. -/
theorem fields_frames_bijective :
    (∀ (negative : Bool) (exponent : UInt8) (mantissa : UInt16),
      (ofParts negative exponent mantissa).negative = negative
        ∧ (ofParts negative exponent mantissa).exponent.val
          = (exponent &&& 0x0F).toNat
        ∧ (ofParts negative exponent mantissa).mantissa.val
          = (mantissa &&& 0x07FF).toNat)
      ∧ (∀ value : Binary32,
        let counted := renormalize maxExponent (hundredths value)
        (encode value).negative = decide (counted.2 < 0)
          ∧ (encode value).exponent = counted.1
          ∧ ((encode value).mantissa.val : Int)
            = if counted.2 < 0 then counted.2 + 2048 else counted.2)
      ∧ (default : Float16) = ofParts false 0 0
      ∧ (∀ head high low : UInt8, ∃ float : Float16,
        decode [head, high, low] = pure float
          ∧ float.toFrame.toBytes = [0, high, low]
          ∧ float.HasFields (256 * high.toNat + low.toNat))
      ∧ ∀ float : Float16,
        decode float.toFrame.toBytes = pure float
          ∧ ofParts float.negative (.ofNat float.exponent)
            (.ofNat float.mantissa) = float
          ∧ float.exponent.val ≤ maxExponent ∧ float.mantissa.val ≤ 2047
          ∧ -2048 ≤ float.signedMantissa ∧ float.signedMantissa ≤ 2047
          ∧ (float.signedMantissa < 0 ↔ float.negative = true)
          ∧ float.signedMantissa = Int.bmod
            (2048 * float.negative.toNat + float.mantissa.val) 4096
          ∧ float.Uncut := by
  refine ⟨ofParts_eq, fields_encode, rfl, exists_decode, ?_⟩
  intro float
  obtain ⟨least, most⟩ := signedMantissa_mem float
  refine ⟨decode_toFrame float, ofParts_fields float,
    Nat.le_of_lt_succ float.exponent.isLt,
    Nat.le_of_lt_succ float.mantissa.isLt, least, most, ?_,
    signedMantissa_eq_bmod float, uncut float⟩
  rw [negative_eq, decide_eq_true_eq]

end Float16

end Fieldbus
