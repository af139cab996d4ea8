import Fieldbus.Proofs.Payload

/-! # Words and integers in the same four bytes

    A word is spelled in base 256, its first digit weighing most, and an
    integer is spelled like the word with the same bits.  The first digit
    that differs decides how two words compare, as it decides how their
    frames compare.  That is an induction over the digits: whatever stands
    behind a digit weighs less than one unit of it.

    Integers stand above the words by half the range.  Turning the top bit
    of the first digit adds just that half, so integers compare as their
    frames do after the turn. -/

namespace Fieldbus

/-! ## Numbers in base 256 -/

/-- The number some bytes spell, the first one weighing most. -/
def spelled : Bytes → Nat
  | [] => 0
  | digit :: rest => digit.toNat <<< (8 * rest.length) + spelled rest

/-- Some digits spell less than the weight of a digit before them. -/
theorem spelled_lt (digits : Bytes) :
    spelled digits < 1 <<< (8 * digits.length) := by
  induction digits with
  | nil => decide
  | cons digit rest ih =>
      have digit_lt := digit.toNat_lt
      show digit.toNat <<< (8 * rest.length) + spelled rest
        < 1 <<< (8 * (rest.length + 1))
      rw [Nat.one_shiftLeft] at ih
      rw [Nat.shiftLeft_eq, Nat.one_shiftLeft, Nat.mul_add, Nat.pow_add]
      have carried : (digit.toNat + 1) * 2 ^ (8 * rest.length)
          ≤ 2 ^ 8 * 2 ^ (8 * rest.length) := Nat.mul_le_mul_right _ digit_lt
      rw [Nat.add_mul, Nat.one_mul] at carried
      omega

/-- The leading digit decides; behind equal ones the rest does. -/
theorem leading_lt_iff {x y a b weight : Nat} (a_lt : a < weight)
    (b_lt : b < weight) :
    x * weight + a < y * weight + b ↔ x < y ∨ x = y ∧ a < b := by
  rcases Nat.lt_trichotomy x y with below | same | above
  · have carried : (x + 1) * weight ≤ y * weight :=
      Nat.mul_le_mul_right _ below
    rw [Nat.add_mul, Nat.one_mul] at carried
    omega
  · subst same
    omega
  · have carried : (y + 1) * weight ≤ x * weight :=
      Nat.mul_le_mul_right _ above
    rw [Nat.add_mul, Nat.one_mul] at carried
    omega

/-- Bytes of one length are in the order of the numbers they spell. -/
theorem lt_iff_spelled_lt {a b : Bytes} (same : a.length = b.length) :
    a < b ↔ spelled a < spelled b := by
  induction a generalizing b with
  | nil =>
      cases b with
      | nil => simp
      | cons _ _ => exact nomatch same
  | cons x a ih =>
      cases b with
      | nil => exact nomatch same
      | cons y b =>
          have lengths : a.length = b.length := Nat.succ.inj same
          -- what stands behind the leading digits is below their weight
          have a_lt := spelled_lt a
          have b_lt := spelled_lt b
          rw [Nat.one_shiftLeft] at a_lt b_lt
          rw [← lengths] at b_lt
          show x :: a < y :: b ↔ x.toNat <<< (8 * a.length) + spelled a
            < y.toNat <<< (8 * b.length) + spelled b
          rw [List.cons_lt_cons_iff, ih lengths, UInt8.lt_iff_toNat_lt,
            ← UInt8.toNat_inj, ← lengths, Nat.shiftLeft_eq, Nat.shiftLeft_eq]
          exact (leading_lt_iff a_lt b_lt).symm

/-! ## The bytes of words -/

/-- A word reads the number that its bytes spell. -/
theorem spelled_toBytes (word : Word) :
    spelled word.toBytes = word.toUInt32.toNat := by
  rw [Word.toNat_toUInt32]
  show word.first.toNat <<< 24 + (word.second.toNat <<< 16
    + (word.third.toNat <<< 8 + (word.fourth.toNat <<< 0 + 0))) = _
  omega

/-- The frame of a word. -/
def wordFrame (n : UInt32) : Bytes := header :: (Word.ofUInt32 n).toBytes

/-- The frame of a word spells the word, since the header is empty. -/
theorem spelled_wordFrame (n : UInt32) : spelled (wordFrame n) = n.toNat := by
  show header.toNat <<< 32 + spelled (Word.ofUInt32 n).toBytes = n.toNat
  rw [spelled_toBytes, Word.toUInt32_ofUInt32]
  exact Nat.zero_add _

/-- Words are in the order of their frames. -/
theorem lt_iff_wordFrame_lt (m n : UInt32) :
    m < n ↔ wordFrame m < wordFrame n := by
  have lengths : (wordFrame m).length = (wordFrame n).length := rfl
  rw [lt_iff_spelled_lt lengths, spelled_wordFrame, spelled_wordFrame]
  exact UInt32.lt_iff_toNat_lt

/-- Words are told from their frames. -/
theorem wordFrame_inj {m n : UInt32} : wordFrame m = wordFrame n ↔ m = n := by
  refine ⟨fun same => ?_, congrArg wordFrame⟩
  apply UInt32.toNat_inj.mp
  rw [← spelled_wordFrame, same, spelled_wordFrame]

/-! ## Integers and the words with the same bits -/

/-- An integer is the remainder of its word that lies around zero. -/
theorem toInt_eq_bmod (i : Int32) :
    i.toInt = Int.bmod i.toUInt32.toNat 0x100000000 :=
  BitVec.toInt_eq_toNat_bmod i.toBitVec

/-- The word of an integer is its remainder that is not negative. -/
theorem toUInt32_eq_emod (i : Int32) :
    (i.toUInt32.toNat : Int) = i.toInt % 0x100000000 := by
  have bound := i.toUInt32.toNat_lt
  rw [toInt_eq_bmod, Int.bmod_def]
  omega

/-- The word of an integer in offset binary: the least integer is zero. -/
def offsetBinary (i : Int32) : UInt32 := i.toUInt32 + 0x80000000

/-- Offset binary counts from the least integer. -/
theorem toNat_offsetBinary (i : Int32) :
    ((offsetBinary i).toNat : Int) = i.toInt + 0x80000000 := by
  have bound := i.toUInt32.toNat_lt
  rw [offsetBinary, UInt32.toNat_add, toInt_eq_bmod, Int.bmod_def]
  show (((i.toUInt32.toNat + 0x80000000) % 2 ^ 32 : Nat) : Int) = _
  omega

/-- Integers are in the order of their words in offset binary. -/
theorem lt_iff_offsetBinary_lt (i j : Int32) :
    i < j ↔ offsetBinary i < offsetBinary j := by
  have first := toNat_offsetBinary i
  have second := toNat_offsetBinary j
  rw [Int32.lt_iff_toInt_lt, UInt32.lt_iff_toNat_lt]
  omega

/-- Integers compare as their words in offset binary. -/
theorem compare_offsetBinary (i j : Int32) :
    Kind.integer.compare i j
      = Kind.word.compare (offsetBinary i) (offsetBinary j) := by
  have first := toNat_offsetBinary i
  have second := toNat_offsetBinary j
  show Kind.Comparison.ranked (Ord.compare i.toInt j.toInt)
    = .ranked (Ord.compare (offsetBinary i).toNat (offsetBinary j).toNat)
  rcases Int.lt_trichotomy i.toInt j.toInt with less | equal | greater
  · rw [Int.compare_eq_lt.mpr less, Nat.compare_eq_lt.mpr (by omega)]
  · rw [Int.compare_eq_eq.mpr equal, Nat.compare_eq_eq.mpr (by omega)]
  · rw [Int.compare_eq_gt.mpr greater, Nat.compare_eq_gt.mpr (by omega)]

/-! ## Turning the top bit -/

/-- Some data with the top bit of its second byte turned. -/
def topTurned (data : Bytes) : Bytes := data.modify 1 (· ^^^ 0x80)

/-- Turning the top bit of a byte adds it, as there is nothing above. -/
theorem xor_top (byte : UInt8) : byte ^^^ 0x80 = byte + 0x80 := by
  have turned : ∀ bits : BitVec 8, bits ^^^ 0x80#8 = bits + 0x80#8 := by
    decide +kernel
  exact UInt8.toBitVec_inj.mp (turned byte.toBitVec)

/-- Adding half the range turns the top bit of the first digit. -/
theorem ofUInt32_add_half (n : UInt32) :
    Word.ofUInt32 (n + 0x80000000)
      = { Word.ofUInt32 n with
          first := (Word.ofUInt32 n).first ^^^ 0x80 } := by
  have bound := n.toNat_lt
  have sum : (n + 0x80000000).toNat = (n.toNat + 0x80000000) % 2 ^ 32 :=
    UInt32.toNat_add n 0x80000000
  have top : (0x80 : UInt8).toNat = 0x80 := rfl
  simp only [Word.ofUInt32, Word.mk.injEq, xor_top, ← UInt8.toNat_inj,
    UInt8.toNat_add, UInt8.toNat_ofNat', sum, top]
  omega

/-- With its top bit turned, the frame of an integer is that of its word in
    offset binary. -/
theorem topTurned_wordFrame (i : Int32) :
    topTurned (wordFrame i.toUInt32) = wordFrame (offsetBinary i) := by
  rw [offsetBinary, wordFrame, wordFrame, ofUInt32_add_half]
  rfl

/-! ## Comparing by frames -/

/-- The values of a kind compare as some data made of them does. -/
structure Kind.RankedBy (kind : Kind) (data : kind.Value → Bytes) : Prop where
  less : ∀ a b, kind.compare a b = .ranked .lt ↔ data a < data b
  equal : ∀ a b, kind.compare a b = .ranked .eq ↔ data a = data b
  greater : ∀ a b, kind.compare a b = .ranked .gt ↔ data b < data a

/-- Words compare as their frames. -/
theorem rankedBy_wordFrame : Kind.word.RankedBy wordFrame := by
  refine ⟨?_, ?_, ?_⟩
  · intro m n
    rw [← lt_iff_wordFrame_lt, Kind.compare, Kind.Comparison.ranked.injEq,
      Nat.compare_eq_lt]
    exact UInt32.lt_iff_toNat_lt.symm
  · intro m n
    rw [wordFrame_inj, Kind.compare, Kind.Comparison.ranked.injEq,
      Nat.compare_eq_eq]
    exact UInt32.toNat_inj
  · intro m n
    rw [← lt_iff_wordFrame_lt, Kind.compare, Kind.Comparison.ranked.injEq,
      Nat.compare_eq_gt]
    exact UInt32.lt_iff_toNat_lt.symm

/-- Integers compare as the frames of their words in offset binary. -/
theorem rankedBy_offsetBinary :
    Kind.integer.RankedBy fun i => wordFrame (offsetBinary i) := by
  refine ⟨?_, ?_, ?_⟩
  · intro i j
    rw [compare_offsetBinary]
    exact rankedBy_wordFrame.less _ _
  · intro i j
    rw [compare_offsetBinary]
    exact rankedBy_wordFrame.equal _ _
  · intro i j
    rw [compare_offsetBinary]
    exact rankedBy_wordFrame.greater _ _

namespace Codec

variable (unsigned : Codec .word) (signed : Codec .integer)

/-- All codecs of words send the same frame. -/
theorem send_word (n : UInt32) : unsigned.send n = wordFrame n := by
  cases unsigned with
  | raw layout => cases layout with | u32 => rfl
  | typed datapoint => cases datapoint with | pulseTotal => rfl

/-- All codecs of integers send the frame of the word with the same bits. -/
theorem send_integer (i : Int32) : signed.send i = wordFrame i.toUInt32 := by
  cases signed with
  | raw layout => cases layout with | v32 => rfl
  | typed datapoint => cases datapoint with | counter family => rfl

/-- With its top bit turned, that frame is the one in offset binary. -/
theorem topTurned_send (i : Int32) :
    topTurned (signed.send i) = wordFrame (offsetBinary i) := by
  rw [send_integer, topTurned_wordFrame]

/-- All codecs of words read the digits behind the header. -/
theorem decode_word (head first second third fourth : UInt8) :
    unsigned.decode [head, first, second, third, fourth]
      = pure (Word.mk first second third fourth).toUInt32 := by
  cases unsigned with
  | raw layout => cases layout with | u32 => rfl
  | typed datapoint => cases datapoint with | pulseTotal => rfl

/-- All codecs of integers read the integer with the same bits. -/
theorem decode_integer (head first second third fourth : UInt8) :
    signed.decode [head, first, second, third, fourth]
      = pure (Word.mk first second third fourth).toUInt32.toInt32 := by
  cases signed with
  | raw layout => cases layout with | v32 => rfl
  | typed datapoint => cases datapoint with | counter family => rfl

/-- Words and integers agree on every frame.  Read as a word, a frame is the
    number that the digits behind its header spell; read as an integer, it
    is congruent to that word and lies around zero.  An integer is sent as
    its remainder.  Words compare as their frames do, and integers as their
    frames do with the top bits turned. -/
theorem words_agree_with_integers :
    (∀ head first second third fourth : UInt8,
      ∃ (n : UInt32) (i : Int32),
        unsigned.decode [head, first, second, third, fourth] = pure n
          ∧ signed.decode [head, first, second, third, fourth] = pure i
          ∧ n.toNat = spelled [first, second, third, fourth]
          ∧ i.toInt % 0x100000000 = n.toNat
          ∧ -0x80000000 ≤ i.toInt ∧ i.toInt ≤ 0x7FFFFFFF)
      ∧ (∀ i : Int32, signed.send i
        = unsigned.send (.ofNat (i.toInt % 0x100000000).toNat))
      ∧ (∀ m n : UInt32, m < n ↔ unsigned.send m < unsigned.send n)
      ∧ (∀ i j : Int32, i < j
        ↔ topTurned (signed.send i) < topTurned (signed.send j))
      ∧ Kind.word.RankedBy unsigned.send
      ∧ Kind.integer.RankedBy fun i => topTurned (signed.send i) := by
  have sent : unsigned.send = wordFrame := funext (send_word unsigned)
  have turned : (fun i => topTurned (signed.send i))
      = fun i => wordFrame (offsetBinary i) :=
    funext (topTurned_send signed)
  rw [sent, turned]
  refine ⟨?_, ?_, lt_iff_wordFrame_lt, ?_, rankedBy_wordFrame,
    rankedBy_offsetBinary⟩
  · intro head first second third fourth
    let n := (Word.mk first second third fourth).toUInt32
    have least := n.toInt32.le_toInt
    have most := n.toInt32.toInt_lt
    refine ⟨n, n.toInt32, decode_word unsigned _ _ _ _ _,
      decode_integer signed _ _ _ _ _, ?_, ?_, least, ?_⟩
    · exact (spelled_toBytes _).symm
    · rw [← toUInt32_eq_emod, UInt32.toUInt32_toInt32]
    · exact Int.le_of_lt_add_one most
  · intro i
    rw [send_integer, ← toUInt32_eq_emod, Int.toNat_natCast,
      UInt32.ofNat_toNat]
  · intro i j
    rw [topTurned_send, topTurned_send, ← lt_iff_wordFrame_lt]
    exact lt_iff_offsetBinary_lt i j

/-- Across zero the words wrap around, but the turned frames do not. -/
example : topTurned ((raw .v32).send (-1)) = [0x00, 0x7F, 0xFF, 0xFF, 0xFF]
    ∧ topTurned ((raw .v32).send 0) = [0x00, 0x80, 0x00, 0x00, 0x00] := by
  decide

end Codec

end Fieldbus
