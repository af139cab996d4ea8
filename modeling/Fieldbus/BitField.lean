/-! # Bit fields — a run of bits inside one byte

    Flags, step codes, signs and exponents share bytes on the wire.  A
    field is an offset and a width; reading shifts and masks, writing
    replaces the masked bits and drops the excess bits of the value.

    A word cannot be shifted by all of its bits: such a shift overflows and
    gives nothing.  On loose numbers the two accessors can therefore fail.
    A field starts inside its byte and ends there, so on a field they do
    not.  Both are described bit by bit, and with those two descriptions the
    masks need never be unfolded again. -/

namespace Fieldbus

/-! ## Shifts that overflow -/

section Shifts

variable {size : Nat} (word : BitVec size) {places : Nat}

/-- A word shifted up, by less than its size. -/
def shiftUp? (places : Nat) : Option (BitVec size) :=
  if places < size then some (word <<< places) else none

/-- A word shifted down, by less than its size. -/
def shiftDown? (places : Nat) : Option (BitVec size) :=
  if places < size then some (word >>> places) else none

/-- Up by less than its size, no word overflows. -/
theorem shiftUp?_of_lt (inside : places < size) :
    shiftUp? word places = some (word <<< places) := if_pos inside

/-- Down by less than its size, no word overflows. -/
theorem shiftDown?_of_lt (inside : places < size) :
    shiftDown? word places = some (word >>> places) := if_pos inside

/-- Up by its size or more, every word overflows. -/
theorem shiftUp?_of_le (beyond : size ≤ places) :
    shiftUp? word places = none := if_neg (Nat.not_lt.mpr beyond)

/-- Down by its size or more, every word overflows. -/
theorem shiftDown?_of_le (beyond : size ≤ places) :
    shiftDown? word places = none := if_neg (Nat.not_lt.mpr beyond)

end Shifts

/-! ## Accessors on loose numbers -/

/-- The lowest `width` bits set.  The power above them is made in sixteen
    bits, where it has room also when they fill the byte. -/
def mask? (width : Nat) : Option (BitVec 8) := do
  let power ← shiftUp? (1 : BitVec 16) width
  pure ((power - 1).setWidth 8)

/-- `width` bits of a byte from `offset` on, moved to the bottom. -/
def readBits? (offset width : Nat) (byte : UInt8) : Option UInt8 := do
  let moved ← shiftDown? byte.toBitVec offset
  let mask ← mask? width
  pure (.ofBitVec (moved &&& mask))

/-- The byte with `width` bits from `offset` on replaced by the low bits of a
    value. -/
def writeBits? (offset width : Nat) (byte value : UInt8) : Option UInt8 := do
  let mask ← mask? width
  let place ← shiftUp? mask offset
  let moved ← shiftUp? value.toBitVec offset
  pure (.ofBitVec ((byte.toBitVec &&& ~~~place) ||| (moved &&& place)))

/-- Nothing is read from behind the byte. -/
theorem readBits?_of_le {offset : Nat} (beyond : 8 ≤ offset) (width : Nat)
    (byte : UInt8) : readBits? offset width byte = none := by
  rw [readBits?, shiftDown?_of_le _ beyond]
  rfl

/-- Nothing is written behind the byte, whatever the mask. -/
theorem writeBits?_of_le {offset : Nat} (beyond : 8 ≤ offset) (width : Nat)
    (byte value : UInt8) : writeBits? offset width byte value = none := by
  rw [writeBits?]
  cases mask? width with
  | none => rfl
  | some mask =>
      show (shiftUp? mask offset).bind _ = none
      rw [shiftUp?_of_le _ beyond]
      rfl

/-! ## Fields -/

/-- A run of `width` bits of a byte, the lowest at `offset`.  It starts inside
    the byte also where it is empty. -/
structure BitField where
  offset : Nat
  width : Nat
  inside : offset < 8 := by decide
  fits : offset + width ≤ 8 := by decide

/-- The bit of a byte at a place, the lowest bit first. -/
def bitAt (byte : UInt8) (place : Nat) : Bool := byte.toBitVec.getLsbD place

/-- A byte is determined by its bits. -/
theorem byte_ext {a b : UInt8} (same : ∀ i < 8, bitAt a i = bitAt b i) :
    a = b :=
  UInt8.toBitVec_inj.mp (BitVec.eq_of_getLsbD_eq same)

namespace BitField

/-- The lowest `width` bits set. -/
def mask (field : BitField) : BitVec 8 := .ofNat 8 (1 <<< field.width - 1)

/-- The mask moved to where the field stands. -/
def place (field : BitField) : BitVec 8 := field.mask <<< field.offset

/-- The power above a mask is at most the one above a byte. -/
theorem one_shiftLeft_width_le (field : BitField) :
    1 <<< field.width ≤ 256 := by
  have fits := field.fits
  rw [Nat.one_shiftLeft]
  show 2 ^ field.width ≤ 2 ^ 8
  exact Nat.pow_le_pow_right (by decide) (by omega)

/-- A field is narrow enough for its mask. -/
theorem mask?_width (field : BitField) :
    mask? field.width = some field.mask := by
  have fits := field.fits
  have power_le := one_shiftLeft_width_le field
  have power_pos : 0 < 1 <<< field.width := by
    rw [Nat.one_shiftLeft]
    exact Nat.two_pow_pos field.width
  rw [mask?, shiftUp?_of_lt 1 (show field.width < 16 by omega)]
  refine congrArg some (BitVec.eq_of_toNat_eq ?_)
  rw [BitVec.toNat_setWidth, BitVec.toNat_sub, BitVec.toNat_shiftLeft, mask,
    BitVec.toNat_ofNat]
  -- a power of at most 256 is not cut off in sixteen bits
  show (2 ^ 16 - 1 + 1 <<< field.width % 2 ^ 16) % 2 ^ 16 % 2 ^ 8
    = (1 <<< field.width - 1) % 2 ^ 8
  omega

/-- Reading a field does not overflow. -/
theorem readBits?_eq (field : BitField) (byte : UInt8) :
    readBits? field.offset field.width byte
      = some (.ofBitVec ((byte.toBitVec >>> field.offset) &&& field.mask)) := by
  rw [readBits?, shiftDown?_of_lt _ field.inside, mask?_width]
  rfl

/-- Writing a field does not overflow. -/
theorem writeBits?_eq (field : BitField) (byte value : UInt8) :
    writeBits? field.offset field.width byte value
      = some (.ofBitVec ((byte.toBitVec &&& ~~~field.place)
        ||| ((value.toBitVec <<< field.offset) &&& field.place))) := by
  rw [writeBits?, mask?_width]
  show ((shiftUp? field.mask field.offset).bind fun place =>
    (shiftUp? value.toBitVec field.offset).bind _) = _
  rw [shiftUp?_of_lt _ field.inside, shiftUp?_of_lt _ field.inside]
  rfl

/-- The bits of the field, moved to the bottom of a byte. -/
def read (field : BitField) (byte : UInt8) : UInt8 :=
  (readBits? field.offset field.width byte).get
    (Option.isSome_of_eq_some (readBits?_eq field byte))

/-- The byte with the field replaced by the low bits of a value. -/
def write (field : BitField) (byte value : UInt8) : UInt8 :=
  (writeBits? field.offset field.width byte value).get
    (Option.isSome_of_eq_some (writeBits?_eq field byte value))

/-- What is read is what the accessor on loose numbers gives. -/
theorem readBits?_eq_read (field : BitField) (byte : UInt8) :
    readBits? field.offset field.width byte = some (field.read byte) :=
  (Option.some_get _).symm

/-- What is written is what the accessor on loose numbers gives. -/
theorem writeBits?_eq_write (field : BitField) (byte value : UInt8) :
    writeBits? field.offset field.width byte value
      = some (field.write byte value) :=
  (Option.some_get _).symm

/-- Reading shifts and masks. -/
theorem read_eq (field : BitField) (byte : UInt8) :
    field.read byte
      = .ofBitVec ((byte.toBitVec >>> field.offset) &&& field.mask) :=
  Option.some.inj
    ((readBits?_eq_read field byte).symm.trans (readBits?_eq field byte))

/-- Writing clears the place of the field and fills it. -/
theorem write_eq (field : BitField) (byte value : UInt8) :
    field.write byte value
      = .ofBitVec ((byte.toBitVec &&& ~~~field.place)
        ||| ((value.toBitVec <<< field.offset) &&& field.place)) :=
  Option.some.inj ((writeBits?_eq_write field byte value).symm.trans
    (writeBits?_eq field byte value))

/-- The mask covers exactly the width. -/
theorem getLsbD_mask (field : BitField) (i : Nat) :
    field.mask.getLsbD i = decide (i < field.width) := by
  have fits := field.fits
  rw [mask, BitVec.getLsbD_ofNat, Nat.one_shiftLeft,
    Nat.testBit_two_pow_sub_one]
  by_cases inside : i < field.width
  · simp [inside, show i < 8 by omega]
  · simp [inside]

/-- The place covers the bits from the offset on. -/
theorem getLsbD_place (field : BitField) {i : Nat} (inside : i < 8) :
    field.place.getLsbD i
      = decide (field.offset ≤ i ∧ i < field.offset + field.width) := by
  rw [place, BitVec.getLsbD_shiftLeft, getLsbD_mask, decide_eq_true inside,
    Bool.true_and]
  by_cases low : i < field.offset
  · simp [low, Nat.not_le_of_lt low]
  · have from_here := Nat.le_of_not_lt low
    have same : i - field.offset < field.width
        ↔ i < field.offset + field.width := by omega
    simp [low, from_here, same]

/-- Reading keeps the bits of the field and clears the rest. -/
theorem bitAt_read (field : BitField) (byte : UInt8) (i : Nat) :
    bitAt (field.read byte) i
      = (decide (i < field.width) && bitAt byte (field.offset + i)) := by
  rw [read_eq]
  simp only [bitAt, BitVec.getLsbD_and, BitVec.getLsbD_ushiftRight,
    getLsbD_mask]
  exact Bool.and_comm _ _

/-- What is read is a digit of the byte in base two to the width. -/
theorem toNat_read (field : BitField) (byte : UInt8) :
    (field.read byte).toNat
      = (byte.toNat >>> field.offset) % (1 <<< field.width) := by
  have power_le := one_shiftLeft_width_le field
  rw [Nat.one_shiftLeft] at power_le
  have mask_lt : 2 ^ field.width - 1 < 2 ^ 8 := by omega
  rw [read_eq]
  show (byte.toBitVec >>> field.offset &&& field.mask).toNat = _
  rw [BitVec.toNat_and, BitVec.toNat_ushiftRight, mask, BitVec.toNat_ofNat,
    Nat.one_shiftLeft, Nat.mod_eq_of_lt mask_lt,
    Nat.and_two_pow_sub_one_eq_mod]
  rfl

/-- What is read fits the width. -/
theorem toNat_read_lt (field : BitField) (byte : UInt8) :
    (field.read byte).toNat < 1 <<< field.width := by
  rw [toNat_read, Nat.one_shiftLeft]
  exact Nat.mod_lt _ (Nat.two_pow_pos _)

/-- Writing sets the bits of the field from the value and keeps the rest. -/
theorem bitAt_write (field : BitField) (byte value : UInt8) {i : Nat}
    (inside : i < 8) :
    bitAt (field.write byte value) i
      = if field.offset ≤ i ∧ i < field.offset + field.width then
          bitAt value (i - field.offset)
        else bitAt byte i := by
  rw [write_eq]
  simp only [bitAt, BitVec.getLsbD_or, BitVec.getLsbD_and,
    BitVec.getLsbD_not, BitVec.getLsbD_shiftLeft, getLsbD_place field inside,
    inside, decide_true, Bool.true_and]
  by_cases covered : field.offset ≤ i ∧ i < field.offset + field.width
  · simp [covered, Nat.not_lt.mpr covered.1]
  · simp [covered]

end BitField

end Fieldbus
