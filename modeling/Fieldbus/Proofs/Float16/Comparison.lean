import Fieldbus.Proofs.Float16.Image

/-! # Comparison — values are ordered as the counts are

    A float stands for a whole number of hundredths, and the value is that
    number rounded.  Rounding respects the order (`ofCount_mono`), and it
    does not merge two counts, because mantissas of twelve bits are further
    apart than a rounding error reaches (`numEq_iff_count_eq`).  So every
    comparison of values has the answer it has on the counts, normal floats
    or not, and all splits of a count into mantissa and exponent are one
    value. -/

namespace Fieldbus

open Binary32

namespace Float16

variable {a b : Float16}

/-- A count is the mantissa under its sign times the power of the
    exponent. -/
theorem count_eq_mul (float : Float16) :
    float.count = float.signedMantissa * 2 ^ float.exponent.val :=
  Int.shiftLeft_eq _ _

/-- A greater count never has the smaller value. -/
theorem toBinary32_le_of_count_le (le : a.count ≤ b.count) :
    a.toBinary32 ≤ b.toBinary32 := by
  rw [toBinary32_eq, toBinary32_eq]
  exact ofCount_mono le

/-- A greater count has the greater value. -/
theorem toBinary32_lt_of_count_lt (lt : a.count < b.count) :
    a.toBinary32 < b.toBinary32 := by
  have ordered := toBinary32_le_of_count_le (Int.le_of_lt lt)
  have distinct : ¬ a.toBinary32.numEq b.toBinary32 = true := by
    intro same
    exact Int.ne_of_lt lt ((numEq_iff_count_eq a b).mp same)
  obtain ⟨place_a, place_b, at_a, at_b, le⟩ := position_of_le ordered
  rw [numEq_iff_of_position at_a at_b] at distinct
  exact (lt_iff_of_position at_a at_b).mpr (lt_of_le_of_ne le distinct)

/-- Values are in the strict order of the counts. -/
theorem toBinary32_lt_iff (a b : Float16) :
    a.toBinary32 < b.toBinary32 ↔ a.count < b.count := by
  constructor
  · intro below
    rcases Int.lt_or_le a.count b.count with lt | le
    · exact lt
    · -- the other order of the counts is the other order of the values
      exfalso
      obtain ⟨place_b, place_a, at_b, at_a, places⟩ :=
        position_of_le (toBinary32_le_of_count_le le)
      have less := (lt_iff_of_position at_a at_b).mp below
      exact absurd less (Int.not_lt.mpr places)
  · intro lt
    exact toBinary32_lt_of_count_lt lt

/-- Values compare as the whole numbers on the wire do: one float has the
    lesser value exactly if its mantissa times the power of its exponent is
    the lesser one, and two floats have equal values exactly if these
    products are equal. -/
theorem value_order_eq_count_order (a b : Float16) :
    (a.toBinary32 < b.toBinary32
        ↔ a.signedMantissa * 2 ^ a.exponent.val
          < b.signedMantissa * 2 ^ b.exponent.val)
      ∧ (a.toBinary32.numEq b.toBinary32 = true
        ↔ a.signedMantissa * 2 ^ a.exponent.val
          = b.signedMantissa * 2 ^ b.exponent.val) := by
  rw [← count_eq_mul, ← count_eq_mul]
  exact ⟨toBinary32_lt_iff a b, numEq_iff_count_eq a b⟩

/-- Two ways to write two, of which encoding gives only the latter. -/
example : (ofParts false 1 100).toBinary32 = 2
    ∧ (ofParts false 0 200).toBinary32 = 2 := by
  decide +kernel

end Float16

end Fieldbus
