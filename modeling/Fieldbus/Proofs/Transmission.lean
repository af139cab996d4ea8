import Fieldbus.Codec
import Fieldbus.Proofs.Float16.Reconstruction
import Fieldbus.Proofs.Float16.Wire

/-! # Transmission — what arrives when a value is sent

    Sending a value and reading the bytes on the other side never fails and
    logs nothing, whatever the codec.  For reals, what arrives is the value
    of a count of hundredths or of a byte. -/

namespace Fieldbus

namespace Codec

variable {kind : Kind}

/-- Send a value and read what was sent. -/
def transmit (codec : Codec kind) (value : kind.Value) :
    Decoding kind.Value := codec.decode (codec.send value)

/-- The value that arrives. -/
def received (codec : Codec kind) (value : kind.Value) : kind.Value :=
  codec.read (codec.encode value)

/-- Everything sent arrives, and nothing is logged. -/
theorem transmit_eq (codec : Codec kind) (value : kind.Value) :
    codec.transmit value = pure (codec.received value) :=
  codec.decode_toBytes (codec.encode value)

/-- A raw real arrives as the value of its count. -/
theorem received_f16 (value : Binary32) :
    (raw .f16).received value
      = Float16.ofCount (Float16.encode value).count := by
  show (Float16.ofFrame (Float16.encode value).toFrame).toBinary32 = _
  rw [Float16.ofFrame_toFrame, Float16.toBinary32_eq]

/-- A measured quantity is held in its range and arrives as the value of
    its count. -/
theorem received_measured (family : Measured) (value : Binary32) :
    (typed (.measured family)).received value
      = Float16.ofCount (Float16.encode (family.range.clamp value)).count :=
  received_f16 (family.range.clamp value)

/-- A scaled quantity arrives as the quantity of its byte. -/
theorem received_scaled (family : Scaled) (value : Binary32) :
    (typed (.scaled family)).received value
      = family.ofByte (family.toByte value) := rfl

end Codec

end Fieldbus
