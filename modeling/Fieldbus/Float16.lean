import Fieldbus.Binary32.Arithmetic
import Fieldbus.Frame
import Fieldbus.Placement

/-! # Sixteen-bit floats — hundredths doubled up to fifteen times

    The value of a float is `0.01 · m · 2^e` with a twelve-bit mantissa `m`
    in two's complement and an exponent `e` of four bits.  On the wire the
    sign comes first, then the exponent, then the eleven lower bits of the
    mantissa.

    Encoding counts hundredths and halves the count, toward zero, until it
    fits the mantissa; so a value takes the least exponent that can hold
    it, and precision is given up one bit at a time. -/

namespace Fieldbus

/-- A sixteen-bit float by its fields.  The mantissa holds the lower eleven
    bits of the two's complement number whose sign stands apart. -/
structure Float16 where
  negative : Bool
  exponent : Fin 16
  mantissa : Fin 2048
deriving DecidableEq

namespace Float16

/-- Zero without exponent, which is how zero is encoded. -/
def zero : Float16 := ⟨false, 0, 0⟩

instance : Inhabited Float16 := ⟨zero⟩

/-- The greatest exponent. -/
def maxExponent : Nat := 15

/-- The least mantissa under its sign. -/
def minMantissa : Int := -2048

/-- The greatest mantissa under its sign. -/
def maxMantissa : Int := 2047

/-- The least encodable value; anything below is encoded like it. -/
def minValue : Binary32 := -671088.64

/-- The greatest encodable value; anything above is encoded like it. -/
def maxValue : Binary32 := 670760.96

/-- What the last bit of the mantissa is worth without exponent. -/
def unit : Binary32 := 0.01

/-- A float from loose fields, of which the excess bits are dropped. -/
def ofParts (negative : Bool) (exponent : UInt8) (mantissa : UInt16) :
    Float16 :=
  ⟨negative, Fin.ofNat 16 exponent.toNat, Fin.ofNat 2048 mantissa.toNat⟩

/-- The mantissa under its sign, a twelve-bit two's complement number. -/
def signedMantissa (float : Float16) : Int :=
  if float.negative then float.mantissa - 2048 else float.mantissa

/-! ## Encoding -/

/-- The whole hundredths in a value, after holding it in the encodable
    range; not-a-number has none. -/
def hundredths (value : Binary32) : Int :=
  (value.clamp minValue maxValue * 100).truncate (-0x80000000) 0x7FFFFFFF

/-- Halve toward zero until the mantissa range is reached or no `room` for a
    greater exponent is left; the exponent counts the halvings. -/
def renormalize : (room : Nat) → Int → Fin (room + 1) × Int
  | 0, count => (0, count)
  | room + 1, count =>
      if minMantissa ≤ count ∧ count ≤ maxMantissa then (0, count)
      else
        let (exponent, mantissa) := renormalize room (count.tdiv 2)
        (exponent.succ, mantissa)

/-- The float of an exponent and a mantissa under its sign, which is held in
    the mantissa range. -/
def ofSigned (exponent : Fin 16) (mantissa : Int) : Float16 :=
  let held := max minMantissa (min maxMantissa mantissa)
  ⟨held < 0, exponent, ⟨(held % 2048).toNat, by omega⟩⟩

/-- The float a value is sent as. -/
def encode (value : Binary32) : Float16 :=
  let (exponent, mantissa) := renormalize maxExponent (hundredths value)
  ofSigned exponent mantissa

/-! ## Reading the value -/

/-- The value of the last bit of the mantissa. -/
def resolution (float : Float16) : Binary32 :=
  unit * .ofNat (1 <<< float.exponent.val)

/-- The value a float stands for. -/
def toBinary32 (float : Float16) : Binary32 :=
  unit * .ofInt float.signedMantissa * .ofNat (1 <<< float.exponent.val)

/-! ## On the wire -/

/-- The byte with sign, exponent and the upper bits of the mantissa. -/
def highByte (float : Float16) : UInt8 :=
  let signed := Placement.sign.write 0 float.negative.toUInt8
  let scaled := Placement.exponent.write signed (.ofNat float.exponent)
  Placement.mantissaTop.write scaled (.ofNat (float.mantissa.val >>> 8))

/-- The byte with the lower bits of the mantissa. -/
def lowByte (float : Float16) : UInt8 := .ofNat float.mantissa

/-- The frame of a float. -/
def toFrame (float : Float16) : Frame .float16 :=
  .float16 header float.highByte float.lowByte

/-- The float in a frame, whatever its header. -/
def ofFrame : Frame .float16 → Float16
  | .float16 _ high low =>
      { negative := Placement.sign.read high == 1
        exponent := ⟨(Placement.exponent.read high).toNat,
          Placement.exponent.toNat_read_lt high⟩
        mantissa := ⟨(Placement.mantissaTop.read high).toNat <<< 8
            + low.toNat, by
          have top_lt : _ < 8 := Placement.mantissaTop.toNat_read_lt high
          have low_lt := low.toNat_lt
          omega⟩ }

/-- Read data as a float. -/
def decode (data : Bytes) : Decoding Float16 :=
  ofFrame <$> Frame.view .float16 data

end Float16

end Fieldbus
