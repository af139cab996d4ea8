import Fieldbus.Layout
import Fieldbus.Proofs.BitField

/-! # Bytes assembled from fields

    A shared byte is made by writing one field after the other.  One write
    does not disturb a field it has no bit in common with, so by induction
    a whole list of writes does not either, and a field written once keeps
    its value until the end.  Writes to fields without a common bit commute
    in pairs, and therefore in any order. -/

namespace Fieldbus

namespace BitField

/-- A field and the value it is to hold. -/
structure Write where
  field : BitField
  value : UInt8

/-- The byte after a write. -/
def Write.apply (byte : UInt8) (write : Write) : UInt8 :=
  write.field.write byte write.value

/-- The byte after a list of writes, the first one first. -/
def assemble (byte : UInt8) (writes : List Write) : UInt8 :=
  writes.foldl Write.apply byte

/-- No two of the writes have a bit in common. -/
def Separate (writes : List Write) : Prop :=
  writes.Pairwise fun a b => Disjoint a.field b.field

/-- Writes are separate where one field ends before the other begins. -/
theorem separate_of_apart {writes : List Write}
    (apart : writes.Pairwise fun a b => Apart a.field b.field) :
    Separate writes :=
  apart.imp disjoint_of_apart

variable {field : BitField} {writes reordered : List Write}

/-- A field that no write has a bit in common with is read as before. -/
theorem read_assemble_of_disjoint
    (disjoint : ∀ write ∈ writes, Disjoint field write.field)
    (byte : UInt8) :
    field.read (assemble byte writes) = field.read byte := by
  induction writes generalizing byte with
  | nil => rfl
  | cons first rest ih =>
      obtain ⟨from_first, from_rest⟩ := List.forall_mem_cons.mp disjoint
      calc field.read (assemble (first.apply byte) rest)
          = field.read (first.apply byte) := ih from_rest _
        _ = field.read byte :=
            read_write_of_disjoint from_first byte first.value

/-- Every field of an assembled byte reads back what was written to it. -/
theorem toNat_read_assemble (separate : Separate writes) {write : Write}
    (member : write ∈ writes) (byte : UInt8) :
    (write.field.read (assemble byte writes)).toNat
      = write.value.toNat % (1 <<< write.field.width) := by
  induction writes generalizing byte with
  | nil => exact nomatch member
  | cons first rest ih =>
      obtain ⟨from_first, others⟩ := List.pairwise_cons.mp separate
      rcases List.mem_cons.mp member with rfl | later
      · -- no later write disturbs the first one
        show (write.field.read (assemble (write.apply byte) rest)).toNat = _
        rw [read_assemble_of_disjoint from_first]
        exact toNat_read_write write.field byte write.value
      · exact ih others later (first.apply byte)

/-- Two writes that can be done in either order. -/
def Write.Commute (a b : Write) : Prop :=
  ∀ byte, b.apply (a.apply byte) = a.apply (b.apply byte)

/-- Separate writes commute, each also with itself. -/
theorem commute_of_separate (separate : Separate writes) :
    ∀ a ∈ writes, ∀ b ∈ writes, a.Commute b := by
  have forward : writes.Pairwise Write.Commute :=
    separate.imp fun disjoint byte =>
      write_comm disjoint.symm byte _ _
  have backward : writes.Pairwise (flip Write.Commute) :=
    forward.imp fun commute byte => (commute byte).symm
  intro a first b second
  exact forward.forall_of_forall_of_flip (fun _ _ _ => rfl) backward
    first second

/-- Separate writes make the same byte in any order. -/
theorem assemble_of_perm (separate : Separate writes)
    (permuted : reordered.Perm writes) (byte : UInt8) :
    assemble byte reordered = assemble byte writes :=
  (permuted.symm.foldl_eq' (commute_of_separate separate) byte).symm

/-- Reading and writing are lawful.  A field starts inside its byte, so no
    shift overflows on it.  It reads back what was written to it modulo two
    to its width, a write keeps the bits outside the field, writing back what
    was read changes nothing, and the later of two writes prevails.  Fields
    without a common bit do not disturb each other, and writes to them
    commute.  So a byte assembled from separate writes is the same in any
    order, and reads back all of them. -/
theorem accessors_lawful :
    (∀ (field : BitField) (byte value later : UInt8),
      readBits? field.offset field.width byte = some (field.read byte)
        ∧ writeBits? field.offset field.width byte value
          = some (field.write byte value)
        ∧ (field.read (field.write byte value)).toNat
          = value.toNat % (1 <<< field.width)
        ∧ (∀ i < 8, ¬ field.Covers i →
          bitAt (field.write byte value) i = bitAt byte i)
        ∧ field.write byte (field.read byte) = byte
        ∧ field.write (field.write byte value) later
          = field.write byte later)
      ∧ (∀ field other : BitField, Disjoint field other →
        ∀ byte value given : UInt8,
          field.read (other.write byte given) = field.read byte
            ∧ field.write (other.write byte given) value
              = other.write (field.write byte value) given)
      ∧ ∀ writes reordered : List Write, Separate writes →
        reordered.Perm writes → ∀ byte : UInt8,
          assemble byte reordered = assemble byte writes
            ∧ ∀ write ∈ writes,
              (write.field.read (assemble byte reordered)).toNat
                = write.value.toNat % (1 <<< write.field.width) := by
  refine ⟨?_, ?_, ?_⟩
  · intro field byte value later
    refine ⟨readBits?_eq_read field byte,
      writeBits?_eq_write field byte value,
      toNat_read_write field byte value, ?_, write_read field byte,
      write_write field byte value later⟩
    intro i inside outside
    exact bitAt_write_of_not_covers byte value outside inside
  · intro field other disjoint byte value given
    exact ⟨read_write_of_disjoint disjoint byte given,
      write_comm disjoint byte value given⟩
  · intro writes reordered separate permuted byte
    have same := assemble_of_perm separate permuted byte
    refine ⟨same, fun write member => ?_⟩
    rw [same]
    exact toNat_read_assemble separate member byte

/-- The three fields of a float's upper byte, written in reverse order over
    another byte; the top of the mantissa is given two bits too many, and so
    is an exponent below a sign that is set. -/
theorem accessors_lawful_upper_byte :
    let writes : List Write := [⟨Placement.sign, 0x01⟩,
      ⟨Placement.exponent, 0x0B⟩, ⟨Placement.mantissaTop, 0x1D⟩]
    writeBits? 3 4 0xDA 0x10 = some (Placement.exponent.write 0xDA 0x10)
      ∧ ¬ Placement.exponent.Covers 7
      ∧ bitAt (Placement.exponent.write 0xDA 0x10) 7 = true
      ∧ Disjoint Placement.exponent Placement.sign
      ∧ Placement.exponent.read (Placement.sign.write 0x5A 0x01) = 0x0B
      ∧ Separate writes ∧ writes.reverse.Perm writes
      ∧ assemble 0x5A writes.reverse = 0xDD
      ∧ (Placement.mantissaTop.read (assemble 0x5A writes.reverse)).toNat
        = 0x1D % 8 := by
  intro writes
  have outside : ¬ Placement.exponent.Covers 7 := by decide
  have disjoint : Disjoint Placement.exponent Placement.sign :=
    disjoint_of_apart (by decide)
  have separate : Separate writes := separate_of_apart (by decide)
  have permuted : writes.reverse.Perm writes := List.reverse_perm writes
  have member : ⟨Placement.mantissaTop, 0x1D⟩ ∈ writes :=
    .tail _ (.tail _ (.head _))
  obtain ⟨single, pairs, lists⟩ := accessors_lawful
  obtain ⟨-, written, -, kept, -⟩ := single Placement.exponent 0xDA 0x10 0
  obtain ⟨read, -⟩ := pairs _ _ disjoint 0x5A 0 0x01
  obtain ⟨same, back⟩ := lists _ _ separate permuted 0x5A
  refine ⟨written, outside, ?_, disjoint, ?_, separate, permuted, ?_, ?_⟩
  · rw [kept 7 (by decide) outside]
    decide
  · rw [read]
    decide
  · rw [same]
    decide
  · rw [back _ member]
    decide

/-- Right behind the byte an empty field still ends with it, but to get there
    a byte is shifted by eight.  Reading gives nothing, and nothing is written
    that could be read back. -/
theorem empty_behind_byte_overflows :
    8 + 0 ≤ 8
      ∧ readBits? 8 0 0xA5 = none
      ∧ writeBits? 8 0 0xA5 0x01 = none
      ∧ ¬ ∃ written back : UInt8,
        writeBits? 8 0 0xA5 0x01 = some written
          ∧ readBits? 8 0 written = some back
          ∧ back.toNat = 0x01 % (1 <<< 0) := by
  have unread : readBits? 8 0 0xA5 = none :=
    readBits?_of_le (Nat.le_refl 8) 0 0xA5
  have unwritten : writeBits? 8 0 0xA5 0x01 = none :=
    writeBits?_of_le (Nat.le_refl 8) 0 0xA5 0x01
  refine ⟨Nat.le_refl 8, unread, unwritten, ?_⟩
  rintro ⟨written, back, wrote, -⟩
  rw [unwritten] at wrote
  exact nomatch wrote

/-- The upper byte of a float is assembled from separate writes. -/
example (float : Float16) :
    float.highByte = assemble 0 [⟨Placement.sign, float.negative.toUInt8⟩,
      ⟨Placement.exponent, .ofNat float.exponent⟩,
      ⟨Placement.mantissaTop, .ofNat (float.mantissa.val >>> 8)⟩] := rfl

end BitField

end Fieldbus
