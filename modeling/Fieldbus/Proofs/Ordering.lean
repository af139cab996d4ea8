import Fieldbus.Proofs.Scaled.Bytes

/-! # Order on the way

    A larger reading never arrives as a smaller one.  Every step between
    the two ends respects the order: holding in the range, each rounded
    product, truncation, renormalization, and the reconstruction from the
    count or the byte.  The infinities and the two zeros are included;
    not-a-number is ordered with nothing. -/

namespace Fieldbus

open Binary32

/-- The ranges of measured quantities are not empty. -/
theorem Measured.range_le (family : Measured) :
    family.range.min ≤ family.range.max := by
  cases family with
  | temperature => decide +kernel
  | illuminance => decide +kernel
  | windSpeed => decide +kernel
  | humidity => decide +kernel

namespace Codec

variable {a b : Binary32}

/-- The counts of raw reals keep the order. -/
theorem received_f16_mono (le : a ≤ b) :
    (raw .f16).received a ≤ (raw .f16).received b := by
  rw [received_f16, received_f16]
  exact Float16.ofCount_mono (Float16.count_encode_mono le)

/-- Holding a measured quantity in its range keeps the order as well. -/
theorem received_measured_mono (family : Measured) (le : a ≤ b) :
    (typed (.measured family)).received a
      ≤ (typed (.measured family)).received b := by
  have held : family.range.clamp a ≤ family.range.clamp b :=
    clamp_mono family.range_le le
  rw [received_measured, received_measured]
  exact Float16.ofCount_mono (Float16.count_encode_mono held)

/-- The bytes of scaled quantities keep the order. -/
theorem received_scaled_mono (family : Scaled) (le : a ≤ b) :
    (typed (.scaled family)).received a
      ≤ (typed (.scaled family)).received b := by
  rw [received_scaled, received_scaled]
  exact family.ofByte_mono (family.toByte_mono le)

/-- What arrives keeps the order, whatever codec carries it. -/
theorem received_mono (codec : Codec .real) (le : a ≤ b) :
    codec.received a ≤ codec.received b := by
  cases codec with
  | raw layout =>
      cases layout with
      | f16 => exact received_f16_mono le
  | typed datapoint =>
      cases datapoint with
      | scaled family => exact received_scaled_mono family le
      | measured family => exact received_measured_mono family le

/-- Ordered reals arrive in order, whatever codec carries them. -/
theorem transmit_mono (codec : Codec .real) (le : a ≤ b) :
    ∃ u w : Binary32, codec.transmit a = pure u ∧ codec.transmit b = pure w
      ∧ u ≤ w :=
  ⟨codec.received a, codec.received b, codec.transmit_eq a,
    codec.transmit_eq b, codec.received_mono le⟩

/-- Across the first change of exponent, where the greater value loses the
    last bit. -/
theorem transmit_mono_at_exponent_change :
    (20.47 : Binary32) ≤ 20.49
      ∧ ∃ u w : Binary32, (raw .f16).transmit (20.47 : Binary32) = pure u
        ∧ (raw .f16).transmit (20.49 : Binary32) = pure w ∧ u ≤ w :=
  ⟨by decide +kernel, transmit_mono (raw .f16) (by decide +kernel)⟩

end Codec

end Fieldbus
