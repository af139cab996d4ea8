import Fieldbus.BitField

/-! # Laws of bit fields

    Everything follows from the two descriptions bit by bit: a field reads
    back what was written to it, as far as it fits, and a write leaves the
    bits outside its field.  So reading one field does not notice a write to
    another without a common bit, and two such writes commute. -/

namespace Fieldbus

/-! ## Flags as bytes -/

/-- The byte of a flag is a single bit. -/
theorem toNat_toUInt8_lt (on : Bool) : on.toUInt8.toNat < 2 := by
  cases on with
  | false => decide
  | true => decide

/-- A flag is told from its byte. -/
theorem beq_one_toUInt8 (on : Bool) : (on.toUInt8 == 1) = on := by
  cases on with
  | false => rfl
  | true => rfl

/-- A single bit is the byte of the flag it stands for. -/
theorem toUInt8_beq_one {bit : UInt8} (single : bit.toNat < 2) :
    (bit == 1).toUInt8 = bit := by
  have digit : bit = 0 ∨ bit = 1 := by
    rw [← UInt8.toNat_inj, ← UInt8.toNat_inj]
    show bit.toNat = 0 ∨ bit.toNat = 1
    omega
  rcases digit with rfl | rfl
  · rfl
  · rfl

/-! ## Bits of bytes -/

/-- The bits above the size of a byte's number are clear. -/
theorem bitAt_of_lt {value : UInt8} {width i : Nat}
    (small : value.toNat < 1 <<< width) (above : width ≤ i) :
    bitAt value i = false := by
  rw [Nat.one_shiftLeft] at small
  exact Nat.testBit_lt_two_pow
    (Nat.lt_of_lt_of_le small (Nat.pow_le_pow_right (by decide) above))

/-- No bit of zero is set. -/
theorem bitAt_zero (i : Nat) : bitAt 0 i = false := BitVec.getLsbD_zero

/-- The bits two bytes have in common. -/
theorem bitAt_and (a b : UInt8) (i : Nat) :
    bitAt (a &&& b) i = (bitAt a i && bitAt b i) := by
  rw [bitAt, UInt8.toBitVec_and, BitVec.getLsbD_and]
  rfl

/-! ## Reading and writing -/

namespace BitField

variable {field other : BitField}

/-- The bits of a byte that belong to a field. -/
def Covers (field : BitField) (place : Nat) : Prop :=
  field.offset ≤ place ∧ place < field.offset + field.width

instance (field : BitField) (place : Nat) : Decidable (field.Covers place) :=
  inferInstanceAs (Decidable (_ ∧ _))

/-- Two fields without a common bit.  An empty field has none in common with
    any, also inside another. -/
def Disjoint (field other : BitField) : Prop :=
  ∀ place, field.Covers place → ¬ other.Covers place

/-- One field ends before the other begins. -/
def Apart (field other : BitField) : Prop :=
  field.offset + field.width ≤ other.offset
    ∨ other.offset + other.width ≤ field.offset

instance (field other : BitField) : Decidable (Apart field other) :=
  inferInstanceAs (Decidable (_ ∨ _))

/-- Fields one of which ends before the other begins share no bit. -/
theorem disjoint_of_apart (apart : Apart field other) :
    Disjoint field other := by
  intro place covers covered
  obtain ⟨from_here, to_here⟩ := covers
  obtain ⟨from_there, to_there⟩ := covered
  rcases apart with below | above
  · omega
  · omega

/-- Sharing no bit is mutual. -/
theorem Disjoint.symm (disjoint : Disjoint field other) :
    Disjoint other field :=
  fun place covers covered => disjoint place covered covers

/-- All bits of a field lie in the byte. -/
theorem lt_of_covers {i : Nat} (covers : field.Covers i) : i < 8 :=
  Nat.lt_of_lt_of_le covers.2 field.fits

/-- A field reads back the low bits of what was written to it. -/
theorem bitAt_read_write (field : BitField) (byte value : UInt8) (i : Nat) :
    bitAt (field.read (field.write byte value)) i
      = (decide (i < field.width) && bitAt value i) := by
  have fits := field.fits
  rw [bitAt_read]
  by_cases inside : i < field.width
  · rw [bitAt_write field byte value (by omega), if_pos (by omega),
      Nat.add_sub_cancel_left]
  · rw [decide_eq_false inside, Bool.false_and, Bool.false_and]

/-- A value that fits the field is read back. -/
theorem read_write (byte : UInt8) {value : UInt8}
    (small : value.toNat < 1 <<< field.width) :
    field.read (field.write byte value) = value := by
  refine byte_ext fun i _ => ?_
  rw [bitAt_read_write]
  by_cases inside : i < field.width
  · rw [decide_eq_true inside, Bool.true_and]
  · rw [bitAt_of_lt small (Nat.le_of_not_lt inside), Bool.and_false]

/-- A field reads back what was written to it modulo two to its width. -/
theorem toNat_read_write (field : BitField) (byte value : UInt8) :
    (field.read (field.write byte value)).toNat
      = value.toNat % (1 <<< field.width) := by
  rw [Nat.one_shiftLeft]
  refine Nat.eq_of_testBit_eq fun i => ?_
  rw [Nat.testBit_mod_two_pow]
  exact bitAt_read_write field byte value i

/-- What is read from a byte is written where it stood. -/
theorem bitAt_write_read (field : BitField) (byte source : UInt8) {i : Nat}
    (inside : i < 8) :
    bitAt (field.write byte (field.read source)) i
      = if field.offset ≤ i ∧ i < field.offset + field.width then
          bitAt source i
        else bitAt byte i := by
  rw [bitAt_write field byte _ inside]
  split
  case isTrue within =>
    rw [bitAt_read, decide_eq_true (by omega), Bool.true_and,
      Nat.add_sub_cancel' within.1]
  case isFalse => rfl

/-- A write leaves the bits outside its field. -/
theorem bitAt_write_of_not_covers {i : Nat} (byte value : UInt8)
    (outside : ¬ field.Covers i) (inside : i < 8) :
    bitAt (field.write byte value) i = bitAt byte i := by
  rw [bitAt_write field byte value inside]
  exact if_neg outside

/-- What is read depends on the bits of the field alone. -/
theorem read_congr {a b : UInt8}
    (same : ∀ i, field.Covers i → bitAt a i = bitAt b i) :
    field.read a = field.read b := by
  refine byte_ext fun i _ => ?_
  rw [bitAt_read, bitAt_read]
  by_cases inside : i < field.width
  · rw [same (field.offset + i) ⟨Nat.le_add_right _ _, by omega⟩]
  · rw [decide_eq_false inside, Bool.false_and, Bool.false_and]

/-- Writing back what a field holds changes nothing. -/
theorem write_read (field : BitField) (byte : UInt8) :
    field.write byte (field.read byte) = byte := by
  refine byte_ext fun i inside => ?_
  rw [bitAt_write_read field byte byte inside, ite_self]

/-- The later of two writes to a field prevails. -/
theorem write_write (field : BitField) (byte value later : UInt8) :
    field.write (field.write byte value) later = field.write byte later := by
  refine byte_ext fun i inside => ?_
  rw [bitAt_write field _ later inside, bitAt_write field byte later inside,
    bitAt_write field byte value inside]
  split
  · rfl
  · rfl

/-- Reading does not notice a write to a field without a common bit. -/
theorem read_write_of_disjoint (disjoint : Disjoint field other)
    (byte value : UInt8) :
    field.read (other.write byte value) = field.read byte := by
  refine read_congr fun i covers => ?_
  exact bitAt_write_of_not_covers byte value (disjoint i covers)
    (lt_of_covers covers)

/-- Reading does not notice a write to a field apart. -/
theorem read_write_of_apart (apart : Apart field other)
    (byte value : UInt8) :
    field.read (other.write byte value) = field.read byte :=
  read_write_of_disjoint (disjoint_of_apart apart) byte value

/-- Writes to fields without a common bit commute. -/
theorem write_comm (disjoint : Disjoint field other)
    (byte value given : UInt8) :
    field.write (other.write byte given) value
      = other.write (field.write byte value) given := by
  refine byte_ext fun i inside => ?_
  by_cases covers : field.Covers i
  · -- the other field does not reach this bit, before or after
    have outside := disjoint i covers
    rw [bitAt_write_of_not_covers _ given outside inside,
      bitAt_write field _ value inside, bitAt_write field byte value inside]
    exact (if_pos covers).trans (if_pos covers).symm
  · rw [bitAt_write_of_not_covers _ value covers inside,
      bitAt_write other byte given inside, bitAt_write other _ given inside,
      bitAt_write_of_not_covers byte value covers inside]

end BitField

end Fieldbus
