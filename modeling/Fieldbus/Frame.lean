import Fieldbus.Decoding

/-! # Frames — the fixed shapes of data on the bus

    A frame is one of four runs of bytes.  All but the single byte begin
    with a header, which is written as zero and ignored when read.  A
    shape is told from data by its length alone: data of the right length
    is always a frame, data of another length never is. -/

namespace Fieldbus

/-- Data as it travels. -/
abbrev Bytes := List UInt8

/-- The header byte of every frame this library writes. -/
def header : UInt8 := 0

/-- The four runs of bytes that carry a value. -/
inductive Shape where
  | single
  | byte
  | word
  | float16
deriving DecidableEq

/-- How many bytes a frame of a shape has. -/
def Shape.length : Shape → Nat
  | .single => 1
  | .byte => 2
  | .word => 5
  | .float16 => 3

/-- Four bytes, the most significant first. -/
structure Word where
  first : UInt8
  second : UInt8
  third : UInt8
  fourth : UInt8
deriving DecidableEq

namespace Word

/-- The bytes in the order they travel. -/
def toBytes (word : Word) : Bytes :=
  [word.first, word.second, word.third, word.fourth]

/-- The number four bytes spell in base 256. -/
def toUInt32 (word : Word) : UInt32 :=
  .ofNat (word.first.toNat <<< 24 + word.second.toNat <<< 16
    + word.third.toNat <<< 8 + word.fourth.toNat)

/-- The base 256 digits of a number. -/
def ofUInt32 (n : UInt32) : Word where
  first := .ofNat (n.toNat >>> 24)
  second := .ofNat (n.toNat >>> 16)
  third := .ofNat (n.toNat >>> 8)
  fourth := .ofNat n.toNat

/-- The number spelled is the sum of its digits at their weights. -/
theorem toNat_toUInt32 (word : Word) :
    word.toUInt32.toNat = word.first.toNat <<< 24
      + word.second.toNat <<< 16 + word.third.toNat <<< 8
      + word.fourth.toNat := by
  have first_lt := word.first.toNat_lt
  have second_lt := word.second.toNat_lt
  have third_lt := word.third.toNat_lt
  have fourth_lt := word.fourth.toNat_lt
  rw [toUInt32, UInt32.toNat_ofNat']
  omega

/-- Spelling a number and reading it gives the number. -/
theorem toUInt32_ofUInt32 (n : UInt32) : (ofUInt32 n).toUInt32 = n := by
  have bound := n.toNat_lt
  apply UInt32.toNat_inj.mp
  rw [toNat_toUInt32]
  simp only [ofUInt32, UInt8.toNat_ofNat']
  omega

/-- Reading four bytes and spelling the number gives the bytes. -/
theorem ofUInt32_toUInt32 (word : Word) : ofUInt32 word.toUInt32 = word := by
  have digits := toNat_toUInt32 word
  obtain ⟨first, second, third, fourth⟩ := word
  have first_lt := first.toNat_lt
  have second_lt := second.toNat_lt
  have third_lt := third.toNat_lt
  have fourth_lt := fourth.toNat_lt
  simp only at digits
  simp only [ofUInt32, Word.mk.injEq]
  refine ⟨?_, ?_, ?_, ?_⟩ <;>
    (apply UInt8.toNat_inj.mp; rw [UInt8.toNat_ofNat', digits]; omega)

end Word

/-- The bytes of a frame, each by its role. -/
inductive Frame : Shape → Type where
  | single (content : UInt8) : Frame .single
  | byte (header value : UInt8) : Frame .byte
  | word (header : UInt8) (digits : Word) : Frame .word
  | float16 (header high low : UInt8) : Frame .float16
deriving DecidableEq

namespace Frame

variable {shape : Shape}

/-- The bytes of a frame in the order they travel. -/
def toBytes : Frame shape → Bytes
  | .single content => [content]
  | .byte head value => [head, value]
  | .word head digits => head :: digits.toBytes
  | .float16 head high low => [head, high, low]

/-- The frame some data is, if it has the length of the shape. -/
def ofBytes? : (shape : Shape) → Bytes → Option (Frame shape)
  | .single, [content] => some (.single content)
  | .byte, [head, value] => some (.byte head value)
  | .word, [head, first, second, third, fourth] =>
      some (.word head ⟨first, second, third, fourth⟩)
  | .float16, [head, high, low] => some (.float16 head high low)
  | _, _ => none

/-- Read data as a frame; data of a wrong length is refused and logged. -/
def view (shape : Shape) (data : Bytes) : Decoding (Frame shape) :=
  match ofBytes? shape data with
  | some frame => pure frame
  | none => .reject ⟨shape.length, data.length⟩

/-- A frame has the length of its shape. -/
theorem length_toBytes (frame : Frame shape) :
    frame.toBytes.length = shape.length := by
  cases frame <;> rfl

/-- The bytes of a frame are that frame. -/
theorem ofBytes?_toBytes (frame : Frame shape) :
    ofBytes? shape frame.toBytes = some frame := by
  cases frame <;> rfl

/-- Data taken for a frame is the bytes of it. -/
theorem toBytes_of_ofBytes? {data : Bytes} {frame : Frame shape}
    (taken : ofBytes? shape data = some frame) : frame.toBytes = data := by
  unfold ofBytes? at taken
  split at taken
  · exact Option.some.inj taken ▸ rfl
  · exact Option.some.inj taken ▸ rfl
  · exact Option.some.inj taken ▸ rfl
  · exact Option.some.inj taken ▸ rfl
  · exact nomatch taken

/-- Data of the right length is always a frame. -/
theorem exists_of_length {data : Bytes}
    (right : data.length = shape.length) :
    ∃ frame : Frame shape, frame.toBytes = data := by
  cases shape with
  | single =>
      match data, right with
      | [a], _ => exact ⟨.single a, rfl⟩
  | byte =>
      match data, right with
      | [a, b], _ => exact ⟨.byte a b, rfl⟩
  | word =>
      match data, right with
      | [a, b, c, d, e], _ => exact ⟨.word a ⟨b, c, d, e⟩, rfl⟩
  | float16 =>
      match data, right with
      | [a, b, c], _ => exact ⟨.float16 a b c, rfl⟩

/-- Viewing the bytes of a frame finds it and logs nothing. -/
theorem view_toBytes (frame : Frame shape) :
    view shape frame.toBytes = ⟨.ok frame, []⟩ := by
  rw [view, ofBytes?_toBytes]
  rfl

/-- Viewing data of a wrong length refuses it with one log entry. -/
theorem view_of_length_ne {data : Bytes}
    (wrong : data.length ≠ shape.length) :
    view shape data = .reject ⟨shape.length, data.length⟩ := by
  rw [view]
  cases taken : ofBytes? shape data with
  | none => rfl
  | some frame =>
      exact absurd (toBytes_of_ofBytes? taken ▸ length_toBytes frame) wrong

end Frame

end Fieldbus
