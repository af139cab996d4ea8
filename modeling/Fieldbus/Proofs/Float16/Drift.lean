import Fieldbus.Proofs.Float16.ClosedForm
import Fieldbus.Proofs.Float16.Resending

/-! # Drift — what sending a value on takes off its mantissa

    A mantissa that is not restored loses exactly one step, and never its
    exponent.  One step and no more, because the hundredfold falls short by
    less than half a step; and the exponent stays, because a float that
    came out of encoding fills its mantissa at least by half, and 1024
    itself is restored.

    How far a mantissa drifts is then a matter of how many mantissas in a
    row are not restored.  There are at most ten (`exists_restored`). -/

namespace Fieldbus

open Binary32

namespace Float16

/-- The second float has the exponent of the first and a mantissa that is
    one nearer to zero. -/
def StepsDown (before after : Float16) : Prop :=
  after.exponent = before.exponent ∧ before.signedMantissa ≠ 0
    ∧ after.signedMantissa
      = before.signedMantissa - before.signedMantissa.sign

/-! ## Quotients of signed sizes -/

/-- A signed size is divided toward zero as the size is. -/
theorem signed_tdiv (s : Bool) (size k : Nat) :
    (signed s size).tdiv ((1 : Int) <<< k) = signed s (size / 1 <<< k) := by
  have power : (1 : Int) <<< k = ((1 <<< k : Nat) : Int) := by
    rw [Int.shiftLeft_eq, Nat.shiftLeft_eq]
    norm_cast
  rw [power]
  cases s with
  | false => exact (Int.ofNat_tdiv size _).symm
  | true =>
      show (-(size : Int)).tdiv _ = -((size / 1 <<< k : Nat) : Int)
      rw [Int.neg_tdiv, Int.ofNat_tdiv]

variable {float : Float16}

/-- The hundredths of a value whose mantissa is not restored: fewer than its
    count, by at most half a step. -/
theorem exists_hundredths_of_lost (lost : ¬ Restores float.signedMantissa) :
    ∃ left : Nat,
      hundredths float.toBinary32 = signed (float.signedMantissa < 0) left
        ∧ left < float.signedMantissa.natAbs * 1 <<< float.exponent.val
        ∧ 2 * (float.signedMantissa.natAbs * 1 <<< float.exponent.val)
          ≤ 2 * left + 1 <<< float.exponent.val + 1 := by
  obtain ⟨least, most⟩ := count_mem float
  have grid := ulp_dvd_natAbs_count float
  have size : float.count.natAbs
      = float.signedMantissa.natAbs * 1 <<< float.exponent.val := by
    rw [natAbs_count, Nat.shiftLeft_eq, Nat.one_shiftLeft]
  have sign : decide (float.count < 0) = decide (float.signedMantissa < 0) :=
    decide_shiftLeft_neg _ _
  have value := hundredths_ofCount least most grid
  rw [← toBinary32_eq, sign] at value
  refine ⟨hundredfold float.count.natAbs / oneUnits, value, ?_, ?_⟩
  · rw [restores_iff_count float] at lost
    rw [← size]
    exact div_oneUnits_lt_iff.mpr (Nat.lt_of_le_of_ne (hundredfold_le grid) lost)
  · have near := le_hundredfold_shiftLeft (natAbs_signedMantissa_le float)
      float.exponent.val
    have reached := (@div_oneUnits_lt_iff
      (hundredfold float.count.natAbs / oneUnits + 1) _).mp
      (Nat.lt_succ_self _)
    rw [← natAbs_count] at near
    rw [← size]
    omega

/-- The size of a power of two is restored, so 1024 is. -/
theorem natAbs_ne_of_lost (lost : ¬ Restores float.signedMantissa) :
    float.signedMantissa.natAbs ≠ 1024 := by
  intro power
  have whole : hundredfold 1024 = 1024 <<< 149 := by decide +kernel
  refine lost ((restores_iff (by omega)).mpr ?_)
  rw [power]
  exact whole

/-! ## One step -/

/-- Sizes up to 2047 fit under either sign. -/
theorem fits_signed (s : Bool) {size : Nat} (small : size ≤ 2047) :
    Fits (signed s size) := by
  have same := natAbs_signed s size
  simp only [Fits, minMantissa, maxMantissa]
  omega

variable {size left power half : Nat}

/-- By at most half a step short, a count still has all steps but one. -/
theorem div_eq_pred (fewer : left < size * power)
    (near : 2 * (size * power) ≤ 2 * left + power + 1) (pos : 0 < power) :
    left / power = size - 1 := by
  cases size with
  | zero =>
      rw [Nat.zero_mul] at fewer
      exact absurd fewer (Nat.not_lt_zero _)
  | succ size =>
      rw [Nat.succ_mul size power] at near
      rw [Nat.add_sub_cancel]
      exact Nat.div_eq_of_lt_le (by omega) fewer

/-- Above 1024 steps it is, in half steps, too large to fit. -/
theorem le_div_half (above : 1025 ≤ size)
    (near : 2 * (size * (2 * half)) ≤ 2 * left + 2 * half + 1)
    (pos : 0 < half) : 2049 ≤ left / half := by
  have least : 1025 * half ≤ size * half := Nat.mul_le_mul_right half above
  rw [Nat.mul_left_comm size 2 half] at near
  refine (Nat.le_div_iff_mul_le pos).mpr ?_
  omega

/-- One nearer to zero is the same sign with one less of its size. -/
theorem sub_sign_eq {n : Int} (nonzero : n ≠ 0) :
    n - n.sign = signed (n < 0) (n.natAbs - 1) := by
  rcases Int.lt_or_gt_of_ne nonzero with negative | positive
  · rw [decide_eq_true negative, Int.sign_eq_neg_one_of_neg negative]
    show _ = -((n.natAbs - 1 : Nat) : Int)
    omega
  · rw [decide_eq_false (Int.not_lt.mpr (Int.le_of_lt positive)),
      Int.sign_eq_one_of_pos positive]
    show _ = ((n.natAbs - 1 : Nat) : Int)
    omega

/-- A float that was filled at least by half keeps its exponent when its
    value is sent on and the mantissa is not restored. -/
theorem exponent_encode_of_lost
    (filled : float.exponent.val = 0 ∨ 1024 ≤ float.signedMantissa.natAbs)
    (lost : ¬ Restores float.signedMantissa) :
    (encode float.toBinary32).exponent = float.exponent := by
  obtain ⟨left, value, fewer, near⟩ := exists_hundredths_of_lost lost
  have small := natAbs_signedMantissa_le float
  refine Fin.ext (Nat.le_antisymm ?_ ?_)
  · rw [exponent_encode_le_iff, value, signed_tdiv,
      div_eq_pred fewer near (one_shiftLeft_pos _)]
    exact fits_signed _ (by omega)
  · -- one exponent less would not do
    cases taken : float.exponent.val with
    | zero => exact Nat.zero_le _
    | succ e =>
        have not_power := natAbs_ne_of_lost lost
        rw [taken, Nat.shiftLeft_succ] at near
        have large := le_div_half (by omega) near (one_shiftLeft_pos e)
        refine Nat.lt_of_not_le ?_
        intro le
        rw [exponent_encode_le_iff, value, signed_tdiv] at le
        have bound := le.natAbs_le
        rw [natAbs_signed] at bound
        omega

/-- What is sent on of a mantissa that is not restored is one step less. -/
theorem stepsDown_of_lost
    (filled : float.exponent.val = 0 ∨ 1024 ≤ float.signedMantissa.natAbs)
    (lost : ¬ Restores float.signedMantissa) :
    StepsDown float (encode float.toBinary32) := by
  have exponent := exponent_encode_of_lost filled lost
  obtain ⟨left, value, fewer, near⟩ := exists_hundredths_of_lost lost
  have nonzero : float.signedMantissa ≠ 0 := by
    intro zero
    rw [zero, Int.natAbs_zero, Nat.zero_mul] at fewer
    exact absurd fewer (Nat.not_lt_zero _)
  refine ⟨exponent, nonzero, ?_⟩
  rw [signedMantissa_encode_eq_tdiv, exponent, value, signed_tdiv,
    div_eq_pred fewer near (one_shiftLeft_pos _)]
  exact (sub_sign_eq nonzero).symm

variable {before after : Float16}

/-- A step down makes the size of the mantissa one less. -/
theorem StepsDown.natAbs_eq (step : StepsDown before after) :
    after.signedMantissa.natAbs = before.signedMantissa.natAbs - 1 := by
  obtain ⟨-, nonzero, down⟩ := step
  rw [down, sub_sign_eq nonzero, natAbs_signed]

/-- A step down leads toward zero and does not pass it. -/
theorem StepsDown.count_mem (step : StepsDown before after) :
    (0 ≤ after.count ∧ after.count ≤ before.count)
      ∨ (before.count ≤ after.count ∧ after.count ≤ 0) := by
  obtain ⟨exponent, nonzero, down⟩ := step
  have power_pos : (0 : Int) < 2 ^ before.exponent.val :=
    Int.pow_pos (by decide)
  rw [count, count, exponent, down, Int.shiftLeft_eq, Int.shiftLeft_eq,
    Int.sub_mul]
  rcases Int.lt_or_gt_of_ne nonzero with negative | positive
  · rw [Int.sign_eq_neg_one_of_neg negative]
    have upper := Int.mul_le_mul_of_nonneg_right
      (show before.signedMantissa ≤ -1 by omega) (Int.le_of_lt power_pos)
    exact Or.inr (by omega)
  · rw [Int.sign_eq_one_of_pos positive]
    have lower := Int.mul_le_mul_of_nonneg_right
      (show 1 ≤ before.signedMantissa by omega) (Int.le_of_lt power_pos)
    exact Or.inl (by omega)

/-! ## How far a mantissa drifts -/

/-- Whether a size is restored can be told on whole parts of `2^-30`. -/
theorem hundredfold_eq_iff_parts (n : Nat) :
    hundredfold n = n <<< 149
      ↔ roundUnits (roundUnits (10737418 * n) 1 * 100) 1 = n <<< 30 := by
  rcases Nat.eq_zero_or_pos n with rfl | pos
  · simp only [hundredfold_zero, Nat.mul_zero, Nat.zero_mul, roundUnits_zero,
      Nat.zero_shiftLeft]
  · have normal : 0x800000 ≤ 10737418 * n := by omega
    have grid : ulp 0x800000 ∣ 0x800000 := by decide
    have kept : 0x800000 ≤ roundUnits (10737418 * n) 1 :=
      le_roundUnits Nat.one_pos grid (by omega)
    have normal' : 0x800000 ≤ roundUnits (10737418 * n) 1 * 100 := by omega
    have size : unitMagnitude.units * n = (10737418 * n) <<< 119 := by
      show 10737418 <<< 119 * n = _
      rw [shiftLeft_mul]
    rw [hundredfold, hundredthUnits, size, roundUnits_shiftLeft normal,
      shiftLeft_mul, roundUnits_shiftLeft normal']
    omega

/-- Of eleven sizes in a row one is restored. -/
theorem exists_restored {size : Nat} (small : size ≤ 2048) :
    ∃ lost ≤ 10, hundredfold (size - lost) = (size - lost) <<< 149 := by
  have all : ∀ size ∈ List.range 2049, ∃ lost ∈ List.range 11,
      roundUnits (roundUnits (10737418 * (size - lost)) 1 * 100) 1
        = (size - lost) <<< 30 := by
    decide +kernel
  obtain ⟨lost, few, whole⟩ := all size (List.mem_range.mpr (by omega))
  have few := List.mem_range.mp few
  exact ⟨lost, by omega, (hundredfold_eq_iff_parts _).mpr whole⟩

end Float16

end Fieldbus
