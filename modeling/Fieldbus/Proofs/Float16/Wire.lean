import Fieldbus.Float16
import Fieldbus.Proofs.BitField

/-! # Floats on the wire

    The three fields of a float share the upper byte without overlapping,
    so each is read back as it was written, and the lower byte completes
    the mantissa. -/

namespace Fieldbus

namespace Float16

/-- The sign is read back. -/
theorem read_sign (float : Float16) :
    Placement.sign.read float.highByte = float.negative.toUInt8 := by
  rw [highByte, BitField.read_write_of_apart (by decide),
    BitField.read_write_of_apart (by decide)]
  exact BitField.read_write 0 (toNat_toUInt8_lt float.negative)

/-- The exponent is read back. -/
theorem read_exponent (float : Float16) :
    Placement.exponent.read float.highByte = .ofNat float.exponent := by
  have exponent_lt := float.exponent.isLt
  have small : (UInt8.ofNat float.exponent).toNat
      < 1 <<< Placement.exponent.width := by
    rw [UInt8.toNat_ofNat']
    show float.exponent.val % 2 ^ 8 < 16
    omega
  rw [highByte, BitField.read_write_of_apart (by decide),
    BitField.read_write _ small]

/-- The top of the mantissa is read back. -/
theorem read_mantissaTop (float : Float16) :
    Placement.mantissaTop.read float.highByte
      = .ofNat (float.mantissa.val >>> 8) := by
  have mantissa_lt := float.mantissa.isLt
  have small : (UInt8.ofNat (float.mantissa.val >>> 8)).toNat
      < 1 <<< Placement.mantissaTop.width := by
    rw [UInt8.toNat_ofNat']
    show (float.mantissa.val >>> 8) % 2 ^ 8 < 8
    omega
  rw [highByte, BitField.read_write _ small]

/-- A float is read back from its frame. -/
theorem ofFrame_toFrame (float : Float16) : ofFrame float.toFrame = float := by
  have exponent_lt := float.exponent.isLt
  have mantissa_lt := float.mantissa.isLt
  have negative : (Placement.sign.read float.highByte == 1)
      = float.negative := by
    rw [read_sign]
    exact beq_one_toUInt8 float.negative
  have exponent : (Placement.exponent.read float.highByte).toNat
      = float.exponent.val := by
    rw [read_exponent, UInt8.toNat_ofNat']
    omega
  have mantissa : (Placement.mantissaTop.read float.highByte).toNat <<< 8
      + float.lowByte.toNat = float.mantissa.val := by
    rw [read_mantissaTop, lowByte, UInt8.toNat_ofNat', UInt8.toNat_ofNat']
    omega
  obtain ⟨s, e, m⟩ := float
  rw [toFrame, ofFrame, Float16.mk.injEq]
  exact ⟨negative, Fin.ext exponent, Fin.ext mantissa⟩

/-- Decoding the bytes of a float finds it and logs nothing. -/
theorem decode_toFrame (float : Float16) :
    decode float.toFrame.toBytes = pure float := by
  rw [decode, Frame.view_toBytes]
  show (⟨.ok (ofFrame float.toFrame), []⟩ : Decoding Float16) = pure float
  rw [ofFrame_toFrame]
  rfl

end Float16

end Fieldbus
