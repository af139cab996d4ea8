import Fieldbus.Datapoint.Catalogue
import Fieldbus.Layout

/-! # Datapoints on the wire

    Every datapoint travels in the layout of its kind, except the scaled
    quantities, which travel as the byte that divides their range into 255
    steps.  Writing saturates; reading takes any frame of the right shape,
    so a value outside the range of the datapoint is read as it stands. -/

namespace Fieldbus

namespace Scaled

/-- The byte of a quantity, truncated. -/
def toByte (family : Scaled) (value : Binary32) : UInt8 :=
  let steps := family.range.clamp value * 255 / family.max
  .ofNat (steps.truncate 0 255).toNat

/-- The quantity of a byte. -/
def ofByte (family : Scaled) (steps : UInt8) : Binary32 :=
  .ofNat steps.toNat * family.max / 255

end Scaled

namespace Datapoint

variable {kind : Kind}

/-- The shape of a datapoint's frames. -/
def shape : Datapoint kind → Shape
  | .switching _ => Layout.b1.shape
  | .dimming => Layout.b1u3.shape
  | .pulseByte => Layout.u8.shape
  | .pulseTotal => Layout.u32.shape
  | .counter _ => Layout.v32.shape
  | .scaled _ => Layout.u8.shape
  | .measured _ => Layout.f16.shape

/-- The frame of a value. -/
def encode : (datapoint : Datapoint kind) → kind.Value →
    Frame datapoint.shape
  | .switching _, on => Layout.b1.encode on
  | .dimming, control => Layout.b1u3.encode control.saturate
  | .pulseByte, count => Layout.u8.encode count
  | .pulseTotal, count => Layout.u32.encode count
  | .counter _, count => Layout.v32.encode count
  | .scaled family, value => Layout.u8.encode (family.toByte value)
  | .measured family, value => Layout.f16.encode (family.range.clamp value)

/-- The value of a frame. -/
def read : (datapoint : Datapoint kind) → Frame datapoint.shape →
    kind.Value
  | .switching _, frame => Layout.b1.read frame
  | .dimming, frame => Layout.b1u3.read frame
  | .pulseByte, frame => Layout.u8.read frame
  | .pulseTotal, frame => Layout.u32.read frame
  | .counter _, frame => Layout.v32.read frame
  | .scaled family, frame => family.ofByte (Layout.u8.read frame)
  | .measured _, frame => Layout.f16.read frame

end Datapoint

end Fieldbus
