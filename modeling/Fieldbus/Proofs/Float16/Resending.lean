import Fieldbus.Proofs.Float16.Precision
import Fieldbus.Proofs.Transmission

/-! # Sending a real on

    A value that came off the wire has a mantissa that fits, so sending it
    on could keep every bit.  Whether it does is decided by the mantissa
    alone: the rounded hundredths of the mantissa, times one hundred, must
    give the mantissa again.  If the product falls short, by however
    little, truncation takes a whole step off.  It never exceeds the
    mantissa, and the exponent scales everything exactly. -/

namespace Fieldbus

open Binary32

namespace Float16

/-- A mantissa that its value times one hundred restores. -/
def Restores (mantissa : Int) : Prop :=
  unit * Binary32.ofInt mantissa * (100 : Binary32) = Binary32.ofInt mantissa

instance (mantissa : Int) : Decidable (Restores mantissa) :=
  inferInstanceAs (Decidable (_ = _))

variable {n : Int}

/-! ## The hundredths of a count's value -/

/-- The places of values of counts. -/
theorem position?_ofCount (bounded : n.natAbs ≤ 0x4000000) :
    (ofCount n).position?
      = some (signed (n < 0) (hundredthUnits n.natAbs)) := by
  rw [ofCount_eq bounded]
  rfl

/-- The hundredfold of a count's value is finite. -/
theorem hundredfold_lt (bounded : n.natAbs ≤ 0x4000000)
    (grid : ulp n.natAbs ∣ n.natAbs) : hundredfold n.natAbs < limitUnits := by
  have restored_or_less := hundredfold_le grid
  show _ < 1 <<< 149 <<< 128
  omega

/-- One hundred times the value of a count. -/
theorem ofCount_mul_hundred (bounded : n.natAbs ≤ 0x4000000)
    (grid : ulp n.natAbs ∣ n.natAbs) :
    ofCount n * (100 : Binary32)
      = .finite (n < 0) ⟨hundredfold n.natAbs, hundredfold_lt bounded grid,
        ulp_dvd_roundUnits _ _⟩ := by
  rw [ofCount_eq bounded, mul_hundred, scale_whole]
  exact ofUnitRatio_eq_finite rfl

/-- Restoring a mantissa is a fact about its size. -/
theorem restores_iff (small : n.natAbs ≤ 0x1000000) :
    Restores n ↔ hundredfold n.natAbs = n.natAbs <<< 149 := by
  have grid := ulp_dvd_of_le 0 small
  rw [Nat.shiftLeft_zero] at grid
  rw [Restores, unit_mul_ofInt small, ofInt_eq small,
    ofCount_mul_hundred (Nat.le_trans small (by decide)) grid]
  constructor
  · intro same
    injection same with _ magnitudes
    exact congrArg Magnitude.units magnitudes
  · intro same
    congr 2

/-- The hundredths of a count's value are the whole part of its
    hundredfold. -/
theorem hundredths_ofCount (least : minMantissa <<< maxExponent ≤ n)
    (most : n ≤ maxMantissa <<< maxExponent) (grid : ulp n.natAbs ∣ n.natAbs) :
    hundredths (ofCount n)
      = signed (n < 0) (hundredfold n.natAbs / oneUnits) := by
  have bounded : n.natAbs ≤ 0x4000000 := by
    have least_eq : minMantissa <<< maxExponent = -0x4000000 := rfl
    have most_eq : maxMantissa <<< maxExponent = 0x3FF8000 := rfl
    omega
  have held : (ofCount n).clamp minValue maxValue = ofCount n := by
    refine clamp_of_mem ?_ ?_
    · rw [← ofCount_bounds.1]
      exact ofCount_mono least
    · rw [← ofCount_bounds.2]
      exact ofCount_mono most
  have whole_le : hundredfold n.natAbs / oneUnits ≤ n.natAbs := by
    have parts := Nat.div_le_div_right (c := oneUnits) (hundredfold_le grid)
    rw [whole_div_oneUnits] at parts
    exact parts
  rw [hundredths, held, ofCount_mul_hundred bounded grid]
  show max (-0x80000000)
    (min 0x7FFFFFFF (signed (n < 0) (hundredfold n.natAbs / oneUnits))) = _
  have size := natAbs_signed (n < 0) (hundredfold n.natAbs / oneUnits)
  omega

/-! ## Sending a float's value on -/

/-- The exponent scales a count and its hundredfold alike. -/
theorem restores_iff_count (float : Float16) :
    Restores float.signedMantissa
      ↔ hundredfold float.count.natAbs = float.count.natAbs <<< 149 := by
  have small := natAbs_signedMantissa_le float
  have power_pos : 0 < 2 ^ float.exponent.val := Nat.two_pow_pos _
  rw [restores_iff (by omega), count, natAbs_shiftLeft, hundredfold_shiftLeft,
    Nat.shiftLeft_eq _ float.exponent.val, Nat.shiftLeft_eq _ 149,
    Nat.shiftLeft_eq _ float.exponent.val, Nat.shiftLeft_eq _ 149,
    Nat.mul_right_comm]
  exact (Nat.mul_left_inj (Nat.ne_of_gt power_pos)).symm

/-- The value of a float has all of its count again if the mantissa is
    restored, and fewer hundredths if not. -/
theorem hundredths_toBinary32 (float : Float16) :
    (Restores float.signedMantissa →
        hundredths float.toBinary32 = float.count)
      ∧ (¬ Restores float.signedMantissa →
        (hundredths float.toBinary32).natAbs < float.count.natAbs) := by
  obtain ⟨least, most⟩ := count_mem float
  have grid := ulp_dvd_natAbs_count float
  rw [toBinary32_eq, hundredths_ofCount least most grid,
    restores_iff_count float]
  constructor
  · intro restored
    have whole : hundredfold float.count.natAbs / oneUnits
        = float.count.natAbs := by
      rw [restored, whole_div_oneUnits]
    rw [whole, signed_natAbs]
  · intro lost
    have short : hundredfold float.count.natAbs
        < float.count.natAbs <<< 149 :=
      Nat.lt_of_le_of_ne (hundredfold_le grid) lost
    rw [natAbs_signed]
    exact div_oneUnits_lt_iff.mpr short

/-- Sending the value of a float on keeps its count exactly if the mantissa
    is restored; otherwise the count comes nearer to zero. -/
theorem count_encode_toBinary32 (float : Float16) :
    (Restores float.signedMantissa →
        (encode float.toBinary32).count = float.count)
      ∧ (¬ Restores float.signedMantissa →
        (encode float.toBinary32).count.natAbs < float.count.natAbs) := by
  obtain ⟨restored, lost⟩ := hundredths_toBinary32 float
  constructor
  · intro restores
    have exponent_le : float.exponent.val ≤ maxExponent :=
      Nat.le_of_lt_succ float.exponent.isLt
    rw [count_encode, restored restores]
    exact kept_shiftLeft (fits_signedMantissa float) exponent_le
  · intro not_restores
    exact Nat.lt_of_le_of_lt (cut_encode float.toBinary32).natAbs_le
      (lost not_restores)

/-- Floats of equal value have counts of equal size. -/
theorem natAbs_count_eq {a b : Float16}
    (same : a.toBinary32.numEq b.toBinary32 = true) :
    a.count.natAbs = b.count.natAbs := by
  rw [toBinary32_eq, toBinary32_eq,
    numEq_iff_of_position (position?_ofCount (natAbs_count_le a))
      (position?_ofCount (natAbs_count_le b))] at same
  have sizes := congrArg Int.natAbs same
  rw [natAbs_signed, natAbs_signed, natAbs_count, natAbs_count] at sizes
  have small_a := natAbs_signedMantissa_le a
  have small_b := natAbs_signedMantissa_le b
  rw [natAbs_count, natAbs_count]
  rcases Nat.lt_trichotomy (a.signedMantissa.natAbs <<< a.exponent.val)
    (b.signedMantissa.natAbs <<< b.exponent.val) with below | same | above
  · have := hundredthUnits_strictMono small_a small_b below
    omega
  · exact same
  · have := hundredthUnits_strictMono small_b small_a above
    omega

/-- The value of a float is sent on unchanged exactly if its mantissa is
    restored. -/
theorem numEq_encode_toBinary32_iff (float : Float16) :
    (encode float.toBinary32).toBinary32.numEq float.toBinary32 = true
      ↔ Restores float.signedMantissa := by
  obtain ⟨kept, lost⟩ := count_encode_toBinary32 float
  constructor
  · intro same
    by_cases restores : Restores float.signedMantissa
    · exact restores
    · exact absurd (natAbs_count_eq same) (Nat.ne_of_lt (lost restores))
  · intro restores
    have place := position?_ofCount (natAbs_count_le float)
    rw [toBinary32_eq, kept restores, toBinary32_eq]
    exact (numEq_iff_of_position place place).mpr rfl

/-- The mantissas that are lost first. -/
example : (List.range 32).filter (fun n : Nat => ¬ Restores n)
    = [5, 10, 15, 20, 23, 27, 30] := by
  decide +kernel

end Float16

/-! ## Reals sent on -/

namespace Codec

/-- A real that arrived and is sent on arrives as the same number exactly if
    the mantissa it was first sent with is restored. -/
theorem transmit_transmit_f16 (value : Binary32) :
    ∃ first second : Binary32, (raw .f16).transmit value = pure first
      ∧ (raw .f16).transmit first = pure second
      ∧ (second.numEq first = true
        ↔ Float16.Restores (Float16.encode value).signedMantissa) := by
  refine ⟨_, _, transmit_eq _ _, transmit_eq _ _, ?_⟩
  rw [received_f16, received_f16, ← Float16.toBinary32_eq,
    ← Float16.toBinary32_eq]
  exact Float16.numEq_encode_toBinary32_iff _

/-- Five hundredths are sent as five, but what arrives is sent on as four. -/
theorem five_hundredths_not_sent_on_unchanged :
    (raw .f16).send 0.05 = [0, 0, 5]
      ∧ ¬ ∀ value first second : Binary32,
        (raw .f16).transmit value = pure first →
          (raw .f16).transmit first = pure second →
            second.numEq first = true := by
  refine ⟨by decide +kernel, ?_⟩
  intro unchanged
  have same := unchanged 0.05 _ _ (transmit_eq _ _) (transmit_eq _ _)
  exact absurd same (by decide +kernel)

end Codec

end Fieldbus
