import Fieldbus.Float16
import Fieldbus.Kind

/-! # Layouts — how a kind of value is laid out in a frame

    Each kind of value has one layout of its own.  Writing is total.
    Reading looks at the payload bits alone: the header byte and the bits
    of a byte that no field covers are ignored, and written as zero.

    `normalize` clears what reading ignores.  It is described on the bits
    of the frame, without writing or reading, so that "frames with the
    same payload" is a notion of its own. -/

namespace Fieldbus

/-- The layouts, each under the kind of value it carries. -/
inductive Layout : Kind → Type where
  | b1 : Layout .flag
  | b1u3 : Layout .control
  | u8 : Layout .byte
  | u32 : Layout .word
  | v32 : Layout .integer
  | f16 : Layout .real

namespace Layout

variable {kind : Kind}

/-- The shape of a layout's frames. -/
def shape : Layout kind → Shape
  | .b1 => .single
  | .b1u3 => .single
  | .u8 => .byte
  | .u32 => .word
  | .v32 => .word
  | .f16 => .float16

/-- The frame of a value.  A step code keeps its lower three bits. -/
def encode : (layout : Layout kind) → kind.Value → Frame layout.shape
  | .b1, on => .single (Placement.flag.write 0 on.toUInt8)
  | .b1u3, control =>
      let directed := Placement.direction.write 0 control.increase.toUInt8
      .single (Placement.stepCode.write directed control.step)
  | .u8, value => .byte header value
  | .u32, value => .word header (.ofUInt32 value)
  | .v32, value => .word header (.ofUInt32 value.toUInt32)
  | .f16, value => (Float16.encode value).toFrame

/-- The value of a frame. -/
def read : (layout : Layout kind) → Frame layout.shape → kind.Value
  | .b1, .single content => Placement.flag.read content == 1
  | .b1u3, .single content =>
      { increase := Placement.direction.read content == 1
        step := Placement.stepCode.read content }
  | .u8, .byte _ value => value
  | .u32, .word _ digits => digits.toUInt32
  | .v32, .word _ digits => digits.toUInt32.toInt32
  | .f16, frame => (Float16.ofFrame frame).toBinary32

/-- The frame with all bits cleared that reading ignores. -/
def normalize : (layout : Layout kind) → Frame layout.shape →
    Frame layout.shape
  | .b1, .single content => .single (content &&& 0x01)
  | .b1u3, .single content => .single (content &&& 0x0F)
  | .u8, .byte _ value => .byte 0 value
  | .u32, .word _ digits => .word 0 digits
  | .v32, .word _ digits => .word 0 digits
  | .f16, .float16 _ high low => .float16 0 high low

end Layout

end Fieldbus
