import Fieldbus.Proofs.Ordering

/-! # Saturation — nothing out of range is sent

    A typed real is held in the range of its datapoint before it is sent,
    but what arrives has been rounded and truncated on the way.  It lies in
    the range all the same: receiving respects the order, so it is enough
    that what arrives of the two bounds does.

    Not-a-number has no place in the order.  It is sent as zero is, and
    zero lies in every range. -/

namespace Fieldbus

open Binary32

namespace Datapoint

/-- The datapoints of reals. -/
def reals : List (Datapoint .real) :=
  [.scaled .scaling, .scaled .angle, .measured .temperature,
    .measured .illuminance, .measured .windSpeed, .measured .humidity]

/-- There are no others. -/
theorem mem_reals (datapoint : Datapoint .real) : datapoint ∈ reals := by
  cases datapoint with
  | scaled family =>
      cases family with
      | scaling => simp [reals]
      | angle => simp [reals]
  | measured family =>
      cases family with
      | temperature => simp [reals]
      | illuminance => simp [reals]
      | windSpeed => simp [reals]
      | humidity => simp [reals]

/-- What can be decided of one real datapoint can be decided of all. -/
instance {P : Datapoint .real → Prop} [DecidablePred P] :
    Decidable (∀ datapoint, P datapoint) :=
  decidable_of_iff (∀ datapoint ∈ reals, P datapoint)
    ⟨fun all datapoint => all datapoint (mem_reals datapoint),
      fun all datapoint _ => all datapoint⟩

/-- The ranges of real datapoints hold zero. -/
theorem zero_mem_range (datapoint : Datapoint .real) :
    datapoint.range.min ≤ zero ∧ zero ≤ datapoint.range.max := by
  revert datapoint
  decide +kernel

/-- The ranges of real datapoints are not empty. -/
theorem range_le (datapoint : Datapoint .real) :
    datapoint.range.min ≤ datapoint.range.max := by
  obtain ⟨above, below⟩ := datapoint.zero_mem_range
  exact Binary32.le_trans above below

end Datapoint

namespace Codec

/-- What arrives of the bounds of a range lies inside them. -/
theorem received_bounds (datapoint : Datapoint .real) :
    datapoint.range.min ≤ (typed datapoint).received datapoint.range.min
      ∧ (typed datapoint).received datapoint.range.max
        ≤ datapoint.range.max := by
  revert datapoint
  decide +kernel

/-- A typed real is sent as what its range holds of it. -/
theorem encode_clamp (datapoint : Datapoint .real) (value : Binary32) :
    (typed datapoint).encode (datapoint.range.clamp value)
      = (typed datapoint).encode value := by
  have held : datapoint.range.clamp (datapoint.range.clamp value)
      = datapoint.range.clamp value :=
    clamp_clamp datapoint.range_le value
  cases datapoint with
  | scaled family =>
      show Layout.u8.encode (family.toByte (family.range.clamp value))
        = Layout.u8.encode (family.toByte value)
      rw [Scaled.toByte, Scaled.toByte]
      change family.range.clamp (family.range.clamp value) = _ at held
      rw [held]
      rfl
  | measured family => exact congrArg Layout.f16.encode held

/-- Not-a-number is sent as zero is. -/
theorem encode_nan (datapoint : Datapoint .real) :
    (typed datapoint).encode nan = (typed datapoint).encode zero := by
  revert datapoint
  decide +kernel

/-- No encoding of zero has a bit set. -/
theorem send_zero (datapoint : Datapoint .real) :
    (typed datapoint).send zero
      = List.replicate datapoint.shape.length 0 := by
  revert datapoint
  decide +kernel

variable {datapoint : Datapoint .real} {value : Binary32}

/-- What arrives of a quantity in the range lies in the range. -/
theorem received_mem_of_mem (least : datapoint.range.min ≤ value)
    (most : value ≤ datapoint.range.max) :
    datapoint.range.min ≤ (typed datapoint).received value
      ∧ (typed datapoint).received value ≤ datapoint.range.max := by
  obtain ⟨above, below⟩ := received_bounds datapoint
  exact ⟨Binary32.le_trans above (received_mono _ least),
    Binary32.le_trans (received_mono _ most) below⟩

/-- What arrives of any quantity lies in the range. -/
theorem received_mem (datapoint : Datapoint .real) (value : Binary32) :
    datapoint.range.min ≤ (typed datapoint).received value
      ∧ (typed datapoint).received value ≤ datapoint.range.max := by
  rcases value.eq_nan_or_position with rfl | ⟨a, place⟩
  · obtain ⟨above, below⟩ := datapoint.zero_mem_range
    rw [received, encode_nan, ← received]
    exact received_mem_of_mem above below
  · obtain ⟨above, below⟩ := clamp_mem datapoint.range_le place
    rw [received, ← encode_clamp, ← received]
    exact received_mem_of_mem above below

/-- A typed real never arrives out of the range of its datapoint.  What lies
    beyond a bound is sent as the bound, and not-a-number as zero, which has
    no bit set.  What lies in the range of a measured quantity is sent as it
    would be without a type. -/
theorem send_saturates :
    (∀ (datapoint : Datapoint .real) (value : Binary32),
      (∃ arrived : Binary32,
          (typed datapoint).transmit value = pure arrived
            ∧ datapoint.range.min ≤ arrived
            ∧ arrived ≤ datapoint.range.max)
        ∧ (value < datapoint.range.min → (typed datapoint).send value
          = (typed datapoint).send datapoint.range.min)
        ∧ (datapoint.range.max < value → (typed datapoint).send value
          = (typed datapoint).send datapoint.range.max)
        ∧ (typed datapoint).send nan = (typed datapoint).send zero
        ∧ (typed datapoint).send zero
          = List.replicate datapoint.shape.length 0)
      ∧ ∀ (family : Measured) (value : Binary32),
        family.range.min ≤ value → value ≤ family.range.max →
          (typed (.measured family)).send value = (raw .f16).send value := by
  constructor
  · intro datapoint value
    refine ⟨⟨_, (typed datapoint).transmit_eq value,
      received_mem datapoint value⟩, ?_, ?_, ?_, send_zero datapoint⟩
    · intro below
      have held : datapoint.range.clamp value = datapoint.range.min :=
        clamp_of_lt datapoint.range_le below
      rw [send, ← encode_clamp, held, ← send]
    · intro above
      have held : datapoint.range.clamp value = datapoint.range.max :=
        clamp_of_gt datapoint.range_le above
      rw [send, ← encode_clamp, held, ← send]
    · rw [send, encode_nan, ← send]
  · intro family value least most
    have unchanged : family.range.clamp value = value :=
      clamp_of_mem least most
    show (Layout.f16.encode (family.range.clamp value)).toBytes
      = (Layout.f16.encode value).toBytes
    rw [unchanged]

/-- Temperatures below absolute zero, above the range, and inside it. -/
theorem send_saturates_temperature :
    ((-500 : Binary32) < -273
        ∧ (typed (.measured .temperature)).send (-500 : Binary32)
          = (typed (.measured .temperature)).send (-273 : Binary32))
      ∧ ((670760 : Binary32) < infinity false
        ∧ (typed (.measured .temperature)).send (infinity false)
          = (typed (.measured .temperature)).send (670760 : Binary32))
      ∧ (-273 : Binary32) ≤ 21 ∧ (21 : Binary32) ≤ 670760
      ∧ (typed (.measured .temperature)).send (21 : Binary32)
        = (raw .f16).send (21 : Binary32) := by
  have below : (-500 : Binary32) < -273 := by decide +kernel
  have above : (670760 : Binary32) < infinity false := by decide +kernel
  have least : (-273 : Binary32) ≤ 21 := by decide +kernel
  have most : (21 : Binary32) ≤ 670760 := by decide +kernel
  exact ⟨⟨below, (send_saturates.1 (.measured .temperature) _).2.1 below⟩,
    ⟨above, (send_saturates.1 (.measured .temperature) _).2.2.1 above⟩,
    least, most, send_saturates.2 .temperature _ least most⟩

end Codec

end Fieldbus
