import Mathlib.Dynamics.FixedPoints.Basic
import Fieldbus.Proofs.Float16.Drift

/-! # Relaying — a real sent on any number of times

    From the second encoding on, a hop either keeps the value or takes one
    step off the mantissa, at the same exponent.  So the value moves toward
    zero only, and as soon as a hop keeps it, every later one does.

    A mantissa comes to rest at the first one below it that is restored,
    and that is at most ten steps away.  The induction is on this distance:
    one hop shortens it by one. -/

namespace Fieldbus

open Binary32

namespace Codec

variable {kind : Kind}

/-- Send a value, and send on what arrives, for a number of hops. -/
def relay (codec : Codec kind) : Nat → kind.Value → Decoding kind.Value
  | 0, value => pure value
  | hops + 1, value => codec.relay hops value >>= codec.transmit

/-- Relaying never fails, and every hop receives what the last one sent. -/
theorem relay_eq (codec : Codec kind) (hops : Nat) (value : kind.Value) :
    codec.relay hops value = pure (codec.received^[hops] value) := by
  induction hops with
  | zero => rfl
  | succ hops ih =>
      rw [relay, ih, Function.iterate_succ_apply']
      exact codec.transmit_eq _

/-! ## One hop of a raw real -/

/-- A raw real arrives as the value of the float it is sent as. -/
theorem received_f16_eq (value : Binary32) :
    (raw .f16).received value = (Float16.encode value).toBinary32 := by
  rw [received_f16, ← Float16.toBinary32_eq]

variable {value : Binary32}

/-- A value whose mantissa is restored is sent on unchanged. -/
theorem isFixedPt_of_restores
    (restores : Float16.Restores (Float16.encode value).signedMantissa) :
    Function.IsFixedPt (raw .f16).received ((raw .f16).received value) := by
  have kept := (Float16.count_encode_toBinary32 (Float16.encode value)).1
    restores
  show (raw .f16).received ((raw .f16).received value)
    = (raw .f16).received value
  rw [received_f16_eq, received_f16_eq, Float16.toBinary32_eq, kept,
    ← Float16.toBinary32_eq]

/-- A value that arrived is sent on unchanged or one step down. -/
theorem received_eq_or_stepsDown (value : Binary32) :
    (raw .f16).received ((raw .f16).received value)
        = (raw .f16).received value
      ∨ Float16.StepsDown (Float16.encode value)
        (Float16.encode ((raw .f16).received value)) := by
  by_cases restores :
      Float16.Restores (Float16.encode value).signedMantissa
  · exact Or.inl (isFixedPt_of_restores restores)
  · refine Or.inr ?_
    rw [received_f16_eq]
    exact Float16.stepsDown_of_lost
      (Float16.natAbs_signedMantissa_encode_ge value) restores

/-- A value that arrived is sent on toward zero, and not past it. -/
theorem received_toward_zero (value : Binary32) :
    (zero ≤ (raw .f16).received ((raw .f16).received value)
        ∧ (raw .f16).received ((raw .f16).received value)
          ≤ (raw .f16).received value)
      ∨ ((raw .f16).received value
          ≤ (raw .f16).received ((raw .f16).received value)
        ∧ (raw .f16).received ((raw .f16).received value) ≤ zero) := by
  have none : zero = Float16.ofCount 0 := by decide +kernel
  rcases received_eq_or_stepsDown value with same | down
  · rw [same, received_f16, none]
    rcases Int.le_total 0 (Float16.encode value).count with sign | sign
    · exact Or.inl ⟨Float16.ofCount_mono sign,
        Float16.ofCount_mono (Int.le_refl _)⟩
    · exact Or.inr ⟨Float16.ofCount_mono (Int.le_refl _),
        Float16.ofCount_mono sign⟩
  · rw [received_f16 ((raw .f16).received value), received_f16 value, none]
    rw [received_f16 value] at down
    rcases down.count_mem with ⟨nonneg, le⟩ | ⟨le, nonpos⟩
    · exact Or.inl ⟨Float16.ofCount_mono nonneg, Float16.ofCount_mono le⟩
    · exact Or.inr ⟨Float16.ofCount_mono le, Float16.ofCount_mono nonpos⟩

/-! ## Any number of hops -/

/-- Where the mantissa is restored, no number of hops changes what
    arrived. -/
theorem isFixedPt_iterate_of_restores (hops : Nat)
    (restores : Float16.Restores (Float16.encode value).signedMantissa) :
    Function.IsFixedPt (raw .f16).received
      ((raw .f16).received^[hops + 1] value) := by
  have fixed := isFixedPt_of_restores restores
  rw [Function.iterate_succ_apply, fixed.iterate hops]
  exact fixed

/-- A value comes to rest once it has lost the steps down to the next size
    that is restored. -/
theorem isFixedPt_iterate {lost hops : Nat} (few : lost ≤ hops)
    (rest : Float16.hundredfold
        ((Float16.encode value).signedMantissa.natAbs - lost)
      = ((Float16.encode value).signedMantissa.natAbs - lost) <<< 149) :
    Function.IsFixedPt (raw .f16).received
      ((raw .f16).received^[hops + 1] value) := by
  induction lost generalizing value hops with
  | zero =>
      have small := Float16.natAbs_signedMantissa_le (Float16.encode value)
      exact isFixedPt_iterate_of_restores hops
        ((Float16.restores_iff (by omega)).mpr rest)
  | succ lost ih =>
      by_cases restores :
          Float16.Restores (Float16.encode value).signedMantissa
      · exact isFixedPt_iterate_of_restores hops restores
      · -- a hop loses one step, so there is one less to lose
        have down := Float16.stepsDown_of_lost
          (Float16.natAbs_signedMantissa_encode_ge value) restores
        rw [← received_f16_eq] at down
        obtain ⟨hops, rfl⟩ : ∃ h, hops = h + 1 := ⟨hops - 1, by omega⟩
        rw [Function.iterate_succ_apply]
        refine ih (Nat.le_of_succ_le_succ few) ?_
        rw [down.natAbs_eq, Nat.sub_sub, Nat.add_comm 1]
        exact rest

/-- What becomes of a real that is relayed.  Every hop after the first
    either keeps the value or takes one step off the mantissa at the same
    exponent, the value moves toward zero only, and after eleven hops it
    moves no more. -/
theorem relay_f16_settles (value : Binary32) :
    ∃ arrived : Nat → Binary32,
      (∀ hops, (raw .f16).relay hops value = pure (arrived hops))
        ∧ (∀ hops, arrived (hops + 1)
          = (Float16.encode (arrived hops)).toBinary32)
        ∧ (∀ hops, arrived (hops + 2) = arrived (hops + 1)
          ∨ Float16.StepsDown (Float16.encode (arrived hops))
            (Float16.encode (arrived (hops + 1))))
        ∧ (∀ hops,
          (zero ≤ arrived (hops + 2)
              ∧ arrived (hops + 2) ≤ arrived (hops + 1))
            ∨ (arrived (hops + 1) ≤ arrived (hops + 2)
              ∧ arrived (hops + 2) ≤ zero))
        ∧ ∀ hops, arrived (hops + 11) = arrived 11 := by
  obtain ⟨arrived, iterated⟩ : ∃ arrived : Nat → Binary32,
      ∀ hops, arrived hops = (raw .f16).received^[hops] value :=
    ⟨_, fun _ => rfl⟩
  have next : ∀ hops,
      arrived (hops + 1) = (raw .f16).received (arrived hops) := by
    intro hops
    rw [iterated, iterated, Function.iterate_succ_apply']
  refine ⟨arrived, ?_, ?_, ?_, ?_, ?_⟩
  · intro hops
    rw [iterated]
    exact relay_eq (raw .f16) hops value
  · intro hops
    rw [next, received_f16_eq]
  · intro hops
    rw [next (hops + 1), next hops]
    exact received_eq_or_stepsDown _
  · intro hops
    rw [next (hops + 1), next hops]
    exact received_toward_zero _
  · intro hops
    obtain ⟨lost, few, rest⟩ := Float16.exists_restored
      (Float16.natAbs_signedMantissa_le (Float16.encode value))
    have fixed := isFixedPt_iterate few rest
    rw [iterated, iterated, Function.iterate_add_apply]
    exact fixed.iterate hops

/-- The bound is reached.  2.434 is sent as 243 hundredths, which lose a
    step at each of ten more hops. -/
example : (raw .f16).received^[11] (2.434 : Binary32)
    ≠ (raw .f16).received^[10] (2.434 : Binary32) := by
  decide +kernel

end Codec

end Fieldbus
