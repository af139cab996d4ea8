import Fieldbus.Layout
import Fieldbus.Proofs.BitField

/-! # Laws of the discrete layouts

    All kinds but the reals are discrete: their layouts round nothing.
    What was written is read back, a step code modulo eight, and what was
    read is written without the bits that reading ignores.

    The shared bytes are settled bit by bit, the words digit by digit. -/

namespace Fieldbus

namespace Layout

variable {kind : Kind}

/-! ## What was written is read -/

/-- A flag is read back. -/
theorem read_encode_b1 (on : Bool) : b1.read (b1.encode on) = on := by
  show (Placement.flag.read (Placement.flag.write 0 on.toUInt8) == 1) = on
  rw [BitField.read_write 0 (toNat_toUInt8_lt on)]
  exact beq_one_toUInt8 on

/-- A step control is read back, its step code modulo eight. -/
theorem read_encode_b1u3 (control : StepControl) :
    b1u3.read (b1u3.encode control)
      = { control with step := control.step % 8 } := by
  have direction : Placement.direction.read
      (Placement.stepCode.write
        (Placement.direction.write 0 control.increase.toUInt8) control.step)
      = control.increase.toUInt8 := by
    rw [BitField.read_write_of_apart (by decide)]
    exact BitField.read_write 0 (toNat_toUInt8_lt control.increase)
  have step : Placement.stepCode.read
      (Placement.stepCode.write
        (Placement.direction.write 0 control.increase.toUInt8) control.step)
      = control.step % 8 := by
    apply UInt8.toNat_inj.mp
    rw [BitField.toNat_read_write, UInt8.toNat_mod]
    rfl
  show StepControl.mk (_ == 1) _ = _
  rw [direction, step, beq_one_toUInt8]

/-- A word is read back. -/
theorem read_encode_u32 (value : UInt32) :
    u32.read (u32.encode value) = value :=
  Word.toUInt32_ofUInt32 value

/-- An integer is read back. -/
theorem read_encode_v32 (value : Int32) :
    v32.read (v32.encode value) = value := by
  show (Word.ofUInt32 value.toUInt32).toUInt32.toInt32 = value
  rw [Word.toUInt32_ofUInt32]
  exact Int32.toInt32_toUInt32 value

/-! ## What was read is written -/

/-- A flag that was read is written as its bit. -/
theorem encode_read_b1 (frame : Frame .single) :
    b1.encode (b1.read frame) = b1.normalize frame := by
  obtain ⟨content⟩ := frame
  have lowest : ∀ i < 8, bitAt 0x01 i = decide (i < 1) := by decide
  show Frame.single (Placement.flag.write 0
      (Placement.flag.read content == 1).toUInt8)
    = .single (content &&& 0x01)
  rw [toUInt8_beq_one (Placement.flag.toNat_read_lt content)]
  congr 1
  refine byte_ext fun i inside => ?_
  rw [BitField.bitAt_write_read _ _ _ inside, bitAt_and, lowest i inside,
    bitAt_zero]
  by_cases low : i < 1
  · simp [Placement.flag, low]
  · simp [Placement.flag, low]

/-- A step control that was read is written as its four bits. -/
theorem encode_read_b1u3 (frame : Frame .single) :
    b1u3.encode (b1u3.read frame) = b1u3.normalize frame := by
  obtain ⟨content⟩ := frame
  have lowest : ∀ i < 8, bitAt 0x0F i = decide (i < 4) := by decide
  show Frame.single (Placement.stepCode.write
      (Placement.direction.write 0
        (Placement.direction.read content == 1).toUInt8)
      (Placement.stepCode.read content))
    = .single (content &&& 0x0F)
  rw [toUInt8_beq_one (Placement.direction.toNat_read_lt content)]
  congr 1
  refine byte_ext fun i inside => ?_
  rw [BitField.bitAt_write_read _ _ _ inside,
    BitField.bitAt_write_read _ _ _ inside, bitAt_and, lowest i inside,
    bitAt_zero]
  show (if 0 ≤ i ∧ i < 0 + 3 then bitAt content i
      else if 3 ≤ i ∧ i < 3 + 1 then bitAt content i else false)
    = (bitAt content i && decide (i < 4))
  by_cases step : i < 3
  · simp [step, show i < 4 by omega]
  · by_cases direction : i < 4
    · simp [step, direction, show 3 ≤ i by omega]
    · simp [step, direction]

/-- A word that was read is written as its digits. -/
theorem encode_read_u32 (frame : Frame .word) :
    u32.encode (u32.read frame) = u32.normalize frame := by
  cases frame with
  | word _ digits =>
      show Frame.word header (.ofUInt32 digits.toUInt32) = .word 0 digits
      rw [Word.ofUInt32_toUInt32]
      rfl

/-- An integer that was read is written as the digits of its word. -/
theorem encode_read_v32 (frame : Frame .word) :
    v32.encode (v32.read frame) = v32.normalize frame := by
  cases frame with
  | word _ digits =>
      show Frame.word header (.ofUInt32 digits.toUInt32.toInt32.toUInt32)
        = .word 0 digits
      rw [UInt32.toUInt32_toInt32, Word.ofUInt32_toUInt32]
      rfl

/-- Writing what was read clears the bits outside the payload. -/
theorem encode_read (discrete : kind ≠ .real) (layout : Layout kind)
    (frame : Frame layout.shape) :
    layout.encode (layout.read frame) = layout.normalize frame := by
  cases layout with
  | b1 => exact encode_read_b1 frame
  | b1u3 => exact encode_read_b1u3 frame
  | u8 =>
      cases frame
      rfl
  | u32 => exact encode_read_u32 frame
  | v32 => exact encode_read_v32 frame
  | f16 => exact absurd rfl discrete

/-- A step code that was read is one of eight. -/
theorem step_read_lt (frame : Frame .single) :
    (b1u3.read frame).step.toNat < 8 := by
  obtain ⟨content⟩ := frame
  exact Placement.stepCode.toNat_read_lt content

end Layout

end Fieldbus
