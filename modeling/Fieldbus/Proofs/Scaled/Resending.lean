import Fieldbus.Proofs.Scaled.Bytes

/-! # Sending a scaled quantity on

    Multiplying a rounded 255th part by 255 restores the dividend exactly,
    unless the part lies just above a power of two: there the dividend has
    last places half as large as needed.  Among all bytes only two angles
    lie there.  They are sent on as the byte below, which lies elsewhere. -/

namespace Fieldbus

open Binary32

/-- A dividend of the grid whose last place holds 256 of its 255th part's is
    restored from that part. -/
theorem Binary32.roundUnits_mul_255 {n : Nat} (grid : ulp n ∣ n)
    (inner : 1 <<< n.log2 < n) (wide : 256 * ulp (n / 255) ≤ ulp n) :
    roundUnits (roundUnits n 255 * 255) 1 = n := by
  have not_above := @roundUnits_mul_le n 255 (by decide)
  have not_below := @le_roundUnits_mul n 255 (by decide)
  have place_pos := ulp_pos (n / 255)
  exact roundUnits_of_near grid inner (by omega) (by omega)

namespace Scaled

variable (family : Scaled)

/-- The bytes whose quantity lies just above a power of two. -/
def Slips (steps : UInt8) : Prop :=
  family = angle ∧ (steps = 91 ∨ steps = 182)

instance (steps : UInt8) : Decidable (family.Slips steps) :=
  inferInstanceAs (Decidable (_ ∧ _))

/-- The byte that the quantity of a byte is sent on as. -/
def sentOn (steps : UInt8) : UInt8 :=
  if family.Slips steps then steps - 1 else steps

/-- The dividends of all other bytes have last places that are large
    enough, and are not powers of two. -/
theorem wide_dividend {steps : UInt8} (pos : 0 < steps.toNat)
    (stable : ¬ family.Slips steps) :
    let dividend := (steps.toNat * family.limit) <<< 149
    256 * ulp (dividend / 255) ≤ ulp dividend
      ∧ 1 <<< dividend.log2 < dividend := by
  have all : ∀ n < 256, 0 < n → ¬ family.Slips (.ofNat n) →
      256 * ulp ((n * family.limit) <<< 149 / 255)
          ≤ ulp ((n * family.limit) <<< 149)
        ∧ 1 <<< ((n * family.limit) <<< 149).log2
          < (n * family.limit) <<< 149 := by
    cases family with
    | scaling => decide +kernel
    | angle => decide +kernel
  exact all steps.toNat steps.toNat_lt pos (by rwa [UInt8.ofNat_toNat])

/-- Multiplying a quantity by 255 restores its dividend. -/
theorem restored_dividend {steps : UInt8} (stable : ¬ family.Slips steps) :
    roundUnits (roundUnits ((steps.toNat * family.limit) <<< 149) 255 * 255) 1
      = (steps.toNat * family.limit) <<< 149 := by
  rcases Nat.eq_zero_or_pos steps.toNat with zero | pos
  · rw [zero, Nat.zero_mul, Nat.zero_shiftLeft, roundUnits_zero,
      Nat.zero_mul, roundUnits_zero]
  · have grid := ulp_dvd_of_le 149 (family.dividend_le steps)
    obtain ⟨wide, inner⟩ := family.wide_dividend pos stable
    exact roundUnits_mul_255 grid inner wide

/-- The quantities of bytes lie in the range. -/
theorem clamp_ofByte (steps : UInt8) :
    family.range.clamp (family.ofByte steps) = family.ofByte steps := by
  have least : family.ofByte 0 = 0 := by
    cases family with
    | scaling => decide +kernel
    | angle => decide +kernel
  have greatest : family.ofByte 255 = family.max := by
    cases family with
    | scaling => decide +kernel
    | angle => decide +kernel
  have steps_le : steps.toNat ≤ (255 : UInt8).toNat :=
    Nat.le_of_lt_succ steps.toNat_lt
  refine clamp_of_mem ?_ ?_
  · show (0 : Binary32) ≤ _
    rw [← least]
    exact family.ofByte_mono (Nat.zero_le _)
  · show _ ≤ family.max
    rw [← greatest]
    exact family.ofByte_mono steps_le

/-- No quantity overflows. -/
theorem quantity_lt (steps : UInt8) :
    roundUnits ((steps.toNat * family.limit) <<< 149) 255 < limitUnits := by
  have steps_lt := steps.toNat_lt
  have quotient_le : roundUnits ((steps.toNat * family.limit) <<< 149) 255
      ≤ 360 <<< 149 := by
    refine roundUnits_le (by decide) (ulp_dvd_of_le 149 (by decide)) ?_
    have dividend : steps.toNat * family.limit ≤ 255 * 360 :=
      Nat.mul_le_mul (by omega) family.limit_le
    omega
  exact Nat.lt_of_le_of_lt quotient_le (by decide)

/-- The first step back gives the dividend. -/
theorem ofByte_mul_255 {steps : UInt8} (stable : ¬ family.Slips steps) :
    family.ofByte steps * 255
      = .finite false (.whole (steps.toNat * family.limit)
        (family.dividend_le steps)) := by
  rw [ofByte_eq, ofUnitRatio, dif_pos (family.quantity_lt steps), mul_255,
    scale_whole]
  exact ofUnitRatio_eq_finite (family.restored_dividend stable)

/-- The second step back gives the byte. -/
theorem dividend_div_max (steps : UInt8) (small : steps.toNat ≤ 0x1000000) :
    .finite false (.whole (steps.toNat * family.limit)
        (family.dividend_le steps)) / family.max
      = .finite false (.whole steps.toNat small) := by
  rw [div_max, scale_div_whole]
  refine ofUnitRatio_eq_finite ?_
  show roundUnits ((steps.toNat * family.limit) <<< 149) _ = _
  rw [← shiftLeft_mul]
  exact roundUnits_of_grid family.limit_pos (ulp_dvd_of_le 149 small)

/-- The quantity of any other byte is sent on as that byte. -/
theorem toByte_ofByte {steps : UInt8} (stable : ¬ family.Slips steps) :
    family.toByte (family.ofByte steps) = steps := by
  have steps_lt := steps.toNat_lt
  have sent := family.toNat_toByte (family.ofByte steps)
  rw [clamp_ofByte, family.ofByte_mul_255 stable,
    family.dividend_div_max steps (by omega)] at sent
  have truncated : ((family.toByte (family.ofByte steps)).toNat : Int)
      = Max.max (0 : Int)
        (Min.min 255 ((steps.toNat <<< 149 / oneUnits : Nat) : Int)) := sent
  rw [whole_div_oneUnits] at truncated
  exact UInt8.toNat_inj.mp (by omega)

/-- The two angles are sent on as the byte below. -/
theorem toByte_ofByte_of_slips {steps : UInt8} (slips : family.Slips steps) :
    family.toByte (family.ofByte steps) = steps - 1 := by
  obtain ⟨rfl, rfl | rfl⟩ := slips
  · decide +kernel
  · decide +kernel

/-- What every byte is sent on as. -/
theorem toByte_ofByte_eq (steps : UInt8) :
    family.toByte (family.ofByte steps) = family.sentOn steps := by
  rw [sentOn]
  by_cases slips : family.Slips steps
  · rw [if_pos slips]
    exact family.toByte_ofByte_of_slips slips
  · rw [if_neg slips]
    exact family.toByte_ofByte slips

/-- A byte that was sent on does not slip again. -/
theorem not_slips_sentOn (steps : UInt8) :
    ¬ family.Slips (family.sentOn steps) := by
  rw [sentOn]
  by_cases slips : family.Slips steps
  · rw [if_pos slips]
    obtain ⟨rfl, rfl | rfl⟩ := slips
    · decide
    · decide
  · rw [if_neg slips]
    exact slips

end Scaled

/-! ## Frames sent on -/

/-- A scaled quantity that is received and sent on has its frame again,
    unless it is one of the two angles; those lose one step, once. -/
theorem Codec.send_received_scaled (family : Scaled) (value : Binary32) :
    ∃ steps first second,
      (typed (.scaled family)).send value = [0, steps]
        ∧ (typed (.scaled family)).transmit value = pure first
        ∧ (typed (.scaled family)).send first = [0, family.sentOn steps]
        ∧ ((typed (.scaled family)).send first
            = (typed (.scaled family)).send value ↔ ¬ family.Slips steps)
        ∧ (typed (.scaled family)).transmit first = pure second
        ∧ (typed (.scaled family)).send second
            = (typed (.scaled family)).send first := by
  have frame : ∀ x, (typed (.scaled family)).send x = [0, family.toByte x] :=
    fun _ => rfl
  refine ⟨family.toByte value, _, _, frame value, transmit_eq _ _, ?_, ?_,
    transmit_eq _ _, ?_⟩
  · rw [frame, received_scaled, family.toByte_ofByte_eq]
  · rw [frame, frame, received_scaled, family.toByte_ofByte_eq]
    constructor
    · intro same slips
      have sent : family.sentOn (family.toByte value) = family.toByte value :=
        (List.cons.inj (List.cons.inj same).2).1
      obtain ⟨rfl, angle | angle⟩ := slips
      · rw [angle] at sent
        exact absurd sent (by decide)
      · rw [angle] at sent
        exact absurd sent (by decide)
    · intro stable
      rw [Scaled.sentOn, if_neg stable]
  · rw [frame, frame, received_scaled, received_scaled,
      family.toByte_ofByte_eq, family.toByte_ofByte_eq, Scaled.sentOn,
      if_neg (family.not_slips_sentOn _)]

/-- The angle 128.5 is sent as byte 91, but what arrives is sent on as byte
    90. -/
theorem Codec.angle_not_sent_on_unchanged :
    (typed (.scaled .angle)).send 128.5 = [0, 91]
      ∧ ¬ ∀ (family : Scaled) (value received : Binary32),
        (typed (.scaled family)).transmit value = pure received →
          (typed (.scaled family)).send received
            = (typed (.scaled family)).send value := by
  refine ⟨by decide +kernel, ?_⟩
  intro reproduced
  have same := reproduced .angle 128.5 _ (transmit_eq _ _)
  exact absurd same (by decide +kernel)

end Fieldbus
