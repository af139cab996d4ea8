import Fieldbus.Proofs.Transmission

/-! # Scaled quantities and their bytes

    A byte stands for one quotient by 255, rounded once.  Both directions
    respect the order: each step on the way does. -/

namespace Fieldbus

open Binary32

namespace Scaled

/-- The greatest value as a natural number. -/
def limit : Scaled → Nat
  | scaling => 100
  | angle => 360

variable (family : Scaled)

/-- Ranges do not vanish. -/
theorem limit_pos : 0 < family.limit := by
  cases family with
  | scaling => decide
  | angle => decide

/-- Ranges are small. -/
theorem limit_le : family.limit ≤ 360 := by
  cases family with
  | scaling => decide
  | angle => decide

/-- The greatest value is a natural number. -/
theorem max_eq : family.max = Binary32.ofNat family.limit := by
  cases family with
  | scaling => rfl
  | angle => rfl

/-- The greatest value up to 256 times still has at most 24 bits. -/
theorem mul_limit_le {n : Nat} (le : n ≤ 256) :
    n * family.limit ≤ 0x1000000 := by
  calc n * family.limit
      ≤ 256 * 360 := Nat.mul_le_mul le family.limit_le
    _ ≤ 0x1000000 := by decide

/-- Bytes times the greatest value have at most 24 bits. -/
theorem dividend_le (steps : UInt8) :
    steps.toNat * family.limit ≤ 0x1000000 :=
  family.mul_limit_le (Nat.le_of_lt steps.toNat_lt)

/-! ## The two directions -/

/-- Dividing by 255 scales. -/
theorem div_255 (x : Binary32) :
    x / (255 : Binary32) = x.scale oneUnits (255 <<< 149) :=
  div_ofNat (by decide) (by decide) x

/-- Multiplying by 255 scales. -/
theorem mul_255 (x : Binary32) :
    x * (255 : Binary32) = x.scale (255 <<< 149) oneUnits :=
  mul_ofNat (by decide) (by decide) x

/-- The greatest value has at most 24 bits. -/
theorem limit_small : family.limit ≤ 0x1000000 :=
  Nat.le_trans family.limit_le (by decide)

/-- Dividing by the greatest value scales. -/
theorem div_max (x : Binary32) :
    x / family.max = x.scale oneUnits (family.limit <<< 149) := by
  rw [max_eq]
  exact div_ofNat family.limit_pos family.limit_small x

/-- The quantity of a byte is one rounded quotient. -/
theorem ofByte_eq (steps : UInt8) :
    family.ofByte steps
      = ofUnitRatio false ((steps.toNat * family.limit) <<< 149) 255 := by
  have small : steps.toNat ≤ 0x1000000 := by
    have := steps.toNat_lt
    omega
  rw [ofByte, max_eq, ofNat_eq small, ofNat_eq family.limit_small,
    whole_mul_whole false family.limit_pos small _ (family.dividend_le steps),
    div_255]
  exact scale_div_whole false (.whole _ (family.dividend_le steps)) 255

/-- The steps a value is truncated to. -/
theorem toNat_toByte (value : Binary32) :
    ((family.toByte value).toNat : Int)
      = (family.range.clamp value * 255 / family.max).truncate 0 255 := by
  have held : ∀ x : Binary32,
      0 ≤ x.truncate 0 255 ∧ x.truncate 0 255 ≤ 255 := by
    intro x
    cases x with
    | nan => exact ⟨Int.le_refl 0, by decide⟩
    | infinity s => exact truncate_mem (by decide) rfl
    | finite s m => exact truncate_mem (by decide) rfl
  have bounds := held (family.range.clamp value * 255 / family.max)
  rw [toByte, UInt8.toNat_ofNat']
  omega

/-! ## Order -/

/-- A larger value is never sent as a smaller byte. -/
theorem toByte_mono {x y : Binary32} (le : x ≤ y) :
    (family.toByte x).toNat ≤ (family.toByte y).toNat := by
  have range : (0 : Binary32) ≤ family.max := by
    cases family with
    | scaling => decide +kernel
    | angle => decide +kernel
  have held : family.range.clamp x ≤ family.range.clamp y :=
    clamp_mono range le
  have divisor_pos : 0 < family.limit <<< 149 :=
    Magnitude.whole_pos family.limit_pos family.limit_small
  have steps : (family.range.clamp x * 255 / family.max).truncate 0 255
      ≤ (family.range.clamp y * 255 / family.max).truncate 0 255 := by
    rw [mul_255, mul_255, div_max, div_max]
    exact truncate_mono (by decide)
      (scale_mono divisor_pos (scale_mono (by decide) held))
  have byte_x := family.toNat_toByte x
  have byte_y := family.toNat_toByte y
  omega

/-- A larger byte never stands for a smaller quantity. -/
theorem ofByte_mono {a b : UInt8} (le : a.toNat ≤ b.toNat) :
    family.ofByte a ≤ family.ofByte b := by
  have dividends : (a.toNat * family.limit) <<< 149
      ≤ (b.toNat * family.limit) <<< 149 := by
    rw [Nat.shiftLeft_eq, Nat.shiftLeft_eq]
    exact Nat.mul_le_mul_right _ (Nat.mul_le_mul_right _ le)
  have rounded := roundUnits_mono (show 0 < 255 by decide) dividends
  rw [ofByte_eq, ofByte_eq]
  refine (le_iff_of_position (position?_ofUnitRatio _ _ _)
    (position?_ofUnitRatio _ _ _)).mpr ?_
  show ((Min.min (roundUnits _ 255) limitUnits : Nat) : Int)
    ≤ (Min.min (roundUnits _ 255) limitUnits : Nat)
  omega

end Scaled

end Fieldbus
