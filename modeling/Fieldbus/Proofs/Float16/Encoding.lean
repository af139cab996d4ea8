import Fieldbus.Proofs.Binary32.Scaling
import Fieldbus.Proofs.Float16.Renormalization

/-! # The count a value is sent as

    Encoding is two steps: the whole hundredths of the value, and what
    renormalization keeps of them.  The held range has few enough
    hundredths for the greatest exponent, so the mantissa always fits and
    is never held back. -/

namespace Fieldbus

open Binary32

/-- A hundredfold scales. -/
theorem Binary32.mul_hundred (x : Binary32) :
    x * (100 : Binary32) = x.scale (100 <<< 149) oneUnits :=
  mul_ofNat (by decide) (by decide) x

namespace Float16

/-! ## Fields -/

/-- The mantissa of a float fits under its sign. -/
theorem fits_signedMantissa (float : Float16) : Fits float.signedMantissa := by
  have bound := float.mantissa.isLt
  rw [signedMantissa, Fits, minMantissa, maxMantissa]
  split
  · omega
  · omega

/-- It has twelve bits with its sign. -/
theorem signedMantissa_mem (float : Float16) :
    -2048 ≤ float.signedMantissa ∧ float.signedMantissa ≤ 2047 :=
  fits_signedMantissa float

/-- A mantissa that fits is not held back. -/
theorem signedMantissa_ofSigned (exponent : Fin 16) {mantissa : Int}
    (fits : Fits mantissa) :
    (ofSigned exponent mantissa).signedMantissa = mantissa := by
  have least : -2048 ≤ mantissa := fits.1
  have most : mantissa ≤ 2047 := fits.2
  have held : max minMantissa (min maxMantissa mantissa) = mantissa := by
    rw [minMantissa, maxMantissa]
    omega
  rw [signedMantissa]
  simp only [ofSigned, held, decide_eq_true_eq]
  split
  · omega
  · omega

/-! ## Hundredths -/

/-- A larger value never has fewer hundredths. -/
theorem hundredths_mono {x y : Binary32} (le : x ≤ y) :
    hundredths x ≤ hundredths y := by
  have held : x.clamp minValue maxValue ≤ y.clamp minValue maxValue :=
    clamp_mono (by decide +kernel) le
  rw [hundredths, hundredths, mul_hundred, mul_hundred]
  exact truncate_mono (by decide) (scale_mono (by decide) held)

/-- The least and the greatest value have these hundredths. -/
theorem hundredths_bounds :
    hundredths minValue = -0x4000000 ∧ hundredths maxValue = 0x3FF8000 - 4 := by
  decide +kernel

/-- No value has more hundredths than the bounds have. -/
theorem hundredths_mem_bounds (value : Binary32) :
    hundredths minValue ≤ hundredths value
      ∧ hundredths value ≤ hundredths maxValue := by
  rcases value.eq_nan_or_position with rfl | ⟨a, place⟩
  · -- not a number, so there are no hundredths at all
    have none_left : hundredths nan = 0 := by
      rw [hundredths, clamp_nan]
      rfl
    obtain ⟨lower, upper⟩ := hundredths_bounds
    omega
  · have range : minValue ≤ maxValue := by decide +kernel
    obtain ⟨above, below⟩ := clamp_mem range place
    have same : hundredths (value.clamp minValue maxValue)
        = hundredths value := by
      rw [hundredths, clamp_clamp range, hundredths]
    rw [← same]
    exact ⟨hundredths_mono above, hundredths_mono below⟩

/-- No value has more hundredths than the greatest exponent can hold. -/
theorem hundredths_mem (value : Binary32) :
    minMantissa <<< maxExponent ≤ hundredths value
      ∧ hundredths value < (maxMantissa + 1) <<< maxExponent := by
  have least : minMantissa <<< maxExponent = -0x4000000 := rfl
  have most : (maxMantissa + 1) <<< maxExponent = 0x4000000 := rfl
  obtain ⟨lower, upper⟩ := hundredths_bounds
  obtain ⟨above, below⟩ := hundredths_mem_bounds value
  omega

/-! ## The encoded float -/

/-- The mantissa that renormalization ends with fits, whatever the value. -/
theorem fits_renormalize_hundredths (value : Binary32) :
    Fits (renormalize maxExponent (hundredths value)).2 :=
  mantissa_fits (hundredths_mem value).1 (hundredths_mem value).2

/-- The mantissa of an encoded value is the renormalized one. -/
theorem signedMantissa_encode (value : Binary32) :
    (encode value).signedMantissa
      = (renormalize maxExponent (hundredths value)).2 :=
  signedMantissa_ofSigned _ (fits_renormalize_hundredths value)

/-- The exponent of an encoded value is the renormalized one. -/
theorem exponent_encode (value : Binary32) :
    (encode value).exponent = (renormalize maxExponent (hundredths value)).1 :=
  rfl

/-- A value is sent as what renormalization keeps of its hundredths. -/
theorem count_encode (value : Binary32) :
    (encode value).count = kept maxExponent (hundredths value) := by
  rw [count, signedMantissa_encode, exponent_encode, kept]

/-- The count sent is the hundredths of the value cut toward zero, by less
    than the last bit of the mantissa. -/
theorem cut_encode (value : Binary32) :
    CutBy ((1 : Int) <<< (encode value).exponent.val) (hundredths value)
      (encode value).count := by
  rw [count_encode, exponent_encode]
  exact cut_kept maxExponent (hundredths value)

/-- A larger value is never sent as a smaller count. -/
theorem count_encode_mono {x y : Binary32} (le : x ≤ y) :
    (encode x).count ≤ (encode y).count := by
  rw [count_encode, count_encode]
  exact kept_mono maxExponent (hundredths_mono le)

end Float16

end Fieldbus
