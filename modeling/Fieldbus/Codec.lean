import Fieldbus.Datapoint.Coding
import Fieldbus.Datapoint.Text

/-! # Codecs — layouts and datapoints alike

    Whatever turns values of a kind into frames and back is a codec: a
    layout, which takes the value as it is, or a datapoint, which also
    gives it a meaning. -/

namespace Fieldbus

/-- The ways to send a value of a kind. -/
inductive Codec (kind : Kind) where
  | raw (layout : Layout kind)
  | typed (datapoint : Datapoint kind)

namespace Codec

variable {kind : Kind}

/-- The shape of a codec's frames. -/
def shape : Codec kind → Shape
  | .raw layout => layout.shape
  | .typed datapoint => datapoint.shape

/-- The frame of a value. -/
def encode : (codec : Codec kind) → kind.Value → Frame codec.shape
  | .raw layout, value => layout.encode value
  | .typed datapoint, value => datapoint.encode value

/-- The value of a frame. -/
def read : (codec : Codec kind) → Frame codec.shape → kind.Value
  | .raw layout, frame => layout.read frame
  | .typed datapoint, frame => datapoint.read frame

/-- The bytes of a value. -/
def send (codec : Codec kind) (value : kind.Value) : Bytes :=
  (codec.encode value).toBytes

/-- Read data as a value. -/
def decode (codec : Codec kind) (data : Bytes) : Decoding kind.Value :=
  codec.read <$> Frame.view codec.shape data

/-- The text of a value, where the codec gives it a meaning. -/
def text? : Codec kind → kind.Value → Option String
  | .raw _, _ => none
  | .typed datapoint, value => some (datapoint.text value)

/-- Decoding the bytes of a frame reads it and logs nothing. -/
theorem decode_toBytes (codec : Codec kind) (frame : Frame codec.shape) :
    codec.decode frame.toBytes = ⟨.ok (codec.read frame), []⟩ := by
  rw [decode, Frame.view_toBytes]
  rfl

/-- Decoding data of a wrong length refuses it with one log entry. -/
theorem decode_of_length_ne (codec : Codec kind) {data : Bytes}
    (wrong : data.length ≠ codec.shape.length) :
    codec.decode data = .reject ⟨codec.shape.length, data.length⟩ := by
  rw [decode, Frame.view_of_length_ne wrong]
  rfl

end Codec

end Fieldbus
