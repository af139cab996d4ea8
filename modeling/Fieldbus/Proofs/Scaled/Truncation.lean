import Fieldbus.Proofs.Binary32.Exact
import Fieldbus.Proofs.Scaled.Resending

/-! # Truncation — scaled bytes lose at most a step and gain nothing

    A value in range is multiplied by 255, divided by the greatest value
    and truncated; the byte is divided by 255 again.  Each of these rounds,
    and still nothing is lost or gained beyond exact truncation:

    * truncation compares the rounded multiple with the boundaries, the
      whole multiples of the greatest value: dividing does not move it
      across one (`boundary_le_iff`);
    * a multiple rounded up to a boundary comes from a value that is no
      smaller than what the boundary stands for (`quantity_le`).  A fifth
      of what is rounded up is 25.6 last places of the value at most, and a
      smaller value would need 25.5; but only whole numbers of last places
      are possible, and there is none between;
    * a multiple rounded to less than the next boundary is half a last
      place below it, which makes up for what the quantity is too small
      (`le_quantity`).  Only the two slipping angles need their numbers. -/

namespace Fieldbus

open Binary32

namespace Scaled

variable (family : Scaled) {units n : Nat}

/-! ## Boundaries -/

/-- The least steps in a whole multiple of the greatest value. -/
def boundary (n : Nat) : Nat := (n * family.limit) <<< 149

/-- The least steps in its 255th part, rounded. -/
def quantity (n : Nat) : Nat := roundUnits (family.boundary n) 255

/-- The least steps in 255 times a size, rounded. -/
def raised (units : Nat) : Nat := roundUnits (units * 255) 1

/-- A boundary is a whole number, in least steps. -/
theorem boundary_eq (n : Nat) :
    family.boundary n = (n * family.limit) <<< 149 := rfl

/-- Boundaries are on the grid. -/
theorem ulp_dvd_boundary (le : n ≤ 256) :
    ulp (family.boundary n) ∣ family.boundary n :=
  ulp_dvd_of_le 149 (family.mul_limit_le le)

/-- Boundaries are the greatest value apart. -/
theorem boundary_succ (n : Nat) :
    family.boundary (n + 1) = family.boundary n + family.limit <<< 149 := by
  rw [boundary_eq, boundary_eq, Nat.add_mul, Nat.one_mul]
  omega

/-- A boundary is a whole number times the greatest value. -/
theorem shiftLeft_mul_limit (n : Nat) :
    n <<< 149 * family.limit = family.boundary n := by
  rw [boundary_eq, shiftLeft_mul]

/-- No value in range is raised beyond the last boundary. -/
theorem raised_le (most : units ≤ family.limit <<< 149) :
    raised units ≤ family.boundary 255 := by
  refine roundUnits_le Nat.one_pos (family.ulp_dvd_boundary (by decide)) ?_
  rw [boundary_eq]
  omega

/-- Dividing does not move a rounded multiple across a boundary. -/
theorem boundary_le_iff (le : n ≤ 256) (units : Nat) :
    family.boundary n ≤ raised units
      ↔ n <<< 149 ≤ roundUnits (raised units) family.limit := by
  have product := family.shiftLeft_mul_limit n
  constructor
  · intro reached
    refine le_roundUnits family.limit_pos (ulp_dvd_of_le 149 (by omega)) ?_
    rw [product]
    exact reached
  · intro divided
    rcases Nat.eq_zero_or_pos n with rfl | pos
    · rw [boundary_eq, Nat.zero_mul, Nat.zero_shiftLeft]
      exact Nat.zero_le _
    · refine Nat.le_of_not_lt ?_
      intro below
      have grid := family.ulp_dvd_boundary le
      rw [← product] at below grid
      have short := roundUnits_lt family.limit_pos
        (ulp_dvd_roundUnits (units * 255) 1) grid (by omega) below
      exact absurd divided (Nat.not_le.mpr short)

/-! ## No gain -/

/-- What is rounded up is half of 256 last places at most. -/
theorem two_mul_raised_le (units : Nat) :
    2 * raised units ≤ 2 * (units * 255) + 256 * ulp units := by
  have half := @roundUnits_mul_le (units * 255) 1 Nat.one_pos
  have doubled := ulp_shiftLeft_le units 8
  have place : ulp (units * 255) ≤ ulp (units <<< 8) := ulp_mono (by omega)
  rw [Nat.div_one] at half
  rw [raised]
  omega

/-- A size that is raised to five times a magnitude of the grid is not
    smaller than its rounded 51st part. -/
theorem roundUnits_51_le {fifth : Nat} (fifth_grid : ulp fifth ∣ fifth)
    (grid : ulp units ∣ units) (reached : fifth * 5 ≤ raised units) :
    roundUnits fifth 51 ≤ units := by
  refine Nat.le_of_not_lt ?_
  intro below
  -- the size is a last place below, so 51 times the size is 25.5 below
  have nearest := add_roundUnits_le (by decide) grid below
  have apart := add_le_of_dvd_of_lt grid
    (ulp_dvd_of_grid (ulp_dvd_roundUnits fifth 51) (Nat.le_of_lt below)) below
  -- and a fifth of what is rounded up is 25.6 at most
  have error := two_mul_raised_le units
  have whole : ulp units ∣ fifth - units * 51 :=
    Nat.dvd_sub (ulp_dvd_of_grid fifth_grid (by omega))
      (Nat.dvd_mul_right_of_dvd grid 51)
  obtain ⟨places, missing⟩ := whole
  have at_least : ulp units * 51 ≤ ulp units * (2 * places) := by
    rw [Nat.mul_left_comm]
    omega
  have at_most : ulp units * (10 * places) ≤ ulp units * 256 := by
    rw [Nat.mul_left_comm]
    omega
  have least := Nat.le_of_mul_le_mul_left at_least (ulp_pos units)
  have most := Nat.le_of_mul_le_mul_left at_most (ulp_pos units)
  omega

/-- The greatest values have a factor in common with 255. -/
theorem limit_eq_mul : ∃ c ≤ 72, family.limit = c * 5 := by
  cases family with
  | scaling => exact ⟨20, by decide, rfl⟩
  | angle => exact ⟨72, by decide, rfl⟩

/-- A size that is raised to a boundary is not smaller than the quantity
    there. -/
theorem quantity_le (le : n ≤ 255) (grid : ulp units ∣ units)
    (reached : family.boundary n ≤ raised units) :
    family.quantity n ≤ units := by
  obtain ⟨c, c_le, limit_eq⟩ := family.limit_eq_mul
  have boundary_mul : family.boundary n = (n * c) <<< 149 * 5 := by
    rw [family.boundary_eq, limit_eq, ← Nat.mul_assoc, shiftLeft_mul]
  have fifth_grid : ulp ((n * c) <<< 149) ∣ (n * c) <<< 149 :=
    ulp_dvd_of_le 149 (Nat.le_trans (Nat.mul_le_mul le c_le) (by decide))
  rw [boundary_mul] at reached
  calc family.quantity n
      = roundUnits ((n * c) <<< 149 * 5) (51 * 5) := by
        rw [quantity, boundary_mul]
    _ = roundUnits ((n * c) <<< 149) 51 :=
        roundUnits_mul_mul _ 51 (by decide)
    _ ≤ units := roundUnits_51_le fifth_grid grid reached

/-! ## The loss -/

/-- What is raised to less than the next boundary is half a last place below
    it. -/
theorem add_ulp_le_of_raised_lt (le : n ≤ 255)
    (passed : family.boundary n ≤ units * 255)
    (left : raised units < family.boundary (n + 1)) :
    2 * (units * 255) + ulp (family.boundary n)
      ≤ 2 * family.boundary n + 2 * family.limit <<< 149 := by
  have grid := family.ulp_dvd_boundary (Nat.succ_le_succ le)
  have below := add_ulp_le_of_roundUnits_lt Nat.one_pos grid left
  have place := ulp_mono passed
  rw [Nat.div_one, family.boundary_succ] at below
  omega

/-- No quantity is too small by a step. -/
theorem boundary_le_quantity_add (le : n ≤ 255) :
    family.boundary n ≤ family.quantity n * 255 + family.limit <<< 149 := by
  have half := @le_roundUnits_mul (family.boundary n) 255 (by decide)
  have limit_pos := family.limit_pos
  have boundary_le : family.boundary n ≤ (255 * 360) <<< 149 := by
    have multiple : n * family.limit ≤ 255 * 360 :=
      Nat.mul_le_mul le family.limit_le
    rw [boundary_eq]
    omega
  have place : ulp (family.boundary n / 255) ≤ 1 <<< 140 :=
    ulp_le_of_lt (by omega)
  rw [quantity]
  omega

/-- A quantity that does not slip is too small by half a last place of its
    boundary at most. -/
theorem two_mul_boundary_le {steps : UInt8} (stable : ¬ family.Slips steps) :
    2 * family.boundary steps.toNat
      ≤ 2 * (family.quantity steps.toNat * 255)
        + ulp (family.boundary steps.toNat) := by
  rcases Nat.eq_zero_or_pos steps.toNat with zero | pos
  · rw [zero, boundary_eq, Nat.zero_mul, Nat.zero_shiftLeft]
    exact Nat.zero_le _
  · have half := @le_roundUnits_mul (family.boundary steps.toNat) 255
      (by decide)
    have wide : 256 * ulp (family.boundary steps.toNat / 255)
        ≤ ulp (family.boundary steps.toNat) :=
      (family.wide_dividend pos stable).1
    rw [quantity]
    omega

/-- The quantities of the two angles that slip, in their last places, and
    the last places of their boundaries. -/
theorem quantity_of_slips :
    (angle.quantity 91 = 8419448 <<< 133
        ∧ ulp (angle.quantity 91) = 1 <<< 133
        ∧ ulp (angle.boundary 91) = 1 <<< 140)
      ∧ angle.quantity 182 = 8419448 <<< 134
        ∧ ulp (angle.quantity 182) = 1 <<< 134
        ∧ ulp (angle.boundary 182) = 1 <<< 141 := by
  decide +kernel

/-- The loss at the two angles that slip: no whole number of last places
    above the quantity is more than a step and still left of the next
    boundary. -/
theorem le_quantity_of_slips (slips : n = 91 ∨ n = 182)
    (grid : ulp units ∣ units)
    (near : 2 * (units * 255) + ulp (angle.boundary n)
      ≤ 2 * angle.boundary n + 2 * angle.limit <<< 149) :
    units * 255 ≤ angle.quantity n * 255 + angle.limit <<< 149 := by
  have limit : angle.limit <<< 149 = 360 <<< 149 := rfl
  rcases Nat.lt_or_ge (angle.quantity n) units with above | le
  · have whole := ulp_dvd_of_grid grid (Nat.le_of_lt above)
    rcases slips with rfl | rfl
    · obtain ⟨⟨quantity_eq, place, boundary_place⟩, -⟩ := quantity_of_slips
      have boundary : angle.boundary 91 = (91 * 360) <<< 149 := rfl
      rw [place] at whole
      obtain ⟨places, rfl⟩ := whole
      omega
    · obtain ⟨-, quantity_eq, place, boundary_place⟩ := quantity_of_slips
      have boundary : angle.boundary 182 = (182 * 360) <<< 149 := rfl
      rw [place] at whole
      obtain ⟨places, rfl⟩ := whole
      omega
  · exact Nat.le_trans (Nat.mul_le_mul_right 255 le) (Nat.le_add_right _ _)

/-- A size that is raised to less than the next boundary exceeds the
    quantity by a step at most. -/
theorem le_quantity {steps : UInt8} (grid : ulp units ∣ units)
    (left : raised units < family.boundary (steps.toNat + 1)) :
    units * 255
      ≤ family.quantity steps.toNat * 255 + family.limit <<< 149 := by
  have steps_le : steps.toNat ≤ 255 := Nat.le_of_lt_succ steps.toNat_lt
  rcases Nat.lt_or_ge (units * 255) (family.boundary steps.toNat)
    with before | passed
  · have reached := family.boundary_le_quantity_add steps_le
    omega
  · -- half a last place is missing from the next boundary
    have near := family.add_ulp_le_of_raised_lt steps_le passed left
    by_cases slips : family.Slips steps
    · obtain ⟨rfl, rfl | rfl⟩ := slips
      · exact le_quantity_of_slips (Or.inl rfl) grid near
      · exact le_quantity_of_slips (Or.inr rfl) grid near
    · have short := family.two_mul_boundary_le slips
      omega

/-! ## The byte of a value -/

/-- Values in range are finite, and not negative. -/
theorem finite_of_mem {value : Binary32} (least : 0 ≤ value)
    (most : value ≤ family.max) :
    ∃ s m, value = .finite s m ∧ (s = false ∨ m.units = 0)
      ∧ m.units ≤ family.limit <<< 149 := by
  have zero_place : (0 : Binary32).position? = some 0 := by decide +kernel
  have max_place : family.max.position?
      = some ((family.limit <<< 149 : Nat) : Int) := by
    rw [max_eq, ofNat_eq family.limit_small]
    rfl
  obtain ⟨a, b, zero_eq, value_eq, nonneg⟩ := position_of_le least
  rw [le_iff_of_position value_eq max_place] at most
  rw [zero_place] at zero_eq
  have a_eq : 0 = a := Option.some.inj zero_eq
  have limit_le := family.limit_le
  have limit_units : (360 <<< 149 : Nat) < limitUnits := by decide
  cases value with
  | nan => exact nomatch value_eq
  | infinity s =>
      have place : signed s limitUnits = b := Option.some.inj value_eq
      have size := natAbs_signed s limitUnits
      omega
  | finite s m =>
      have place : signed s m.units = b := Option.some.inj value_eq
      have size := natAbs_signed s m.units
      refine ⟨s, m, rfl, ?_, by omega⟩
      cases s with
      | false => exact Or.inl rfl
      | true =>
          have negative : -(m.units : Int) = b := place
          exact Or.inr (by omega)

/-- No value in range is raised to more than a finite number. -/
theorem raised_lt (most : units ≤ family.limit <<< 149) :
    raised units < limitUnits := by
  refine Nat.lt_of_le_of_lt (family.raised_le most) ?_
  cases family with
  | scaling => decide
  | angle => decide

/-- The rounded quotient of a value in range is 255 at most. -/
theorem quotient_le (most : units ≤ family.limit <<< 149) :
    roundUnits (raised units) family.limit ≤ 255 <<< 149 := by
  refine roundUnits_le family.limit_pos (ulp_dvd_of_le 149 (by decide)) ?_
  rw [shiftLeft_mul_limit]
  exact family.raised_le most

/-- The two rounded steps to the byte of a value in range. -/
theorem mul_255_div_max (s : Bool) {m : Magnitude}
    (size : m.units ≤ family.limit <<< 149) :
    ∃ quotient : Magnitude,
      .finite s m * 255 / family.max = .finite s quotient
        ∧ quotient.units = roundUnits (raised m.units) family.limit := by
  have quotient_lt : roundUnits (raised m.units) family.limit < limitUnits :=
    Nat.lt_of_le_of_lt (family.quotient_le size) (by decide)
  have multiple : ofUnitRatio s (m.units * 255) 1
      = .finite s ⟨raised m.units, family.raised_lt size,
        ulp_dvd_roundUnits _ _⟩ := ofUnitRatio_eq_finite rfl
  refine ⟨⟨_, quotient_lt, ulp_dvd_roundUnits _ _⟩, ?_, rfl⟩
  rw [mul_255, scale_whole, multiple, div_max, scale_div_whole]
  exact ofUnitRatio_eq_finite rfl

/-- The byte of a value in range is the whole part of the rounded
    quotient. -/
theorem toNat_toByte_finite {s : Bool} {m : Magnitude}
    (least : 0 ≤ Binary32.finite s m) (most : .finite s m ≤ family.max)
    (sign : s = false ∨ m.units = 0)
    (size : m.units ≤ family.limit <<< 149) :
    (family.toByte (.finite s m)).toNat
      = roundUnits (raised m.units) family.limit / oneUnits := by
  have held : family.range.clamp (.finite s m) = .finite s m :=
    clamp_of_mem least most
  obtain ⟨quotient, quotient_eq, units_eq⟩ := family.mul_255_div_max s size
  have steps_lt : quotient.units / oneUnits < 256 := by
    have quotient_le := family.quotient_le size
    rw [div_oneUnits_lt_iff, units_eq]
    omega
  have byte := family.toNat_toByte (.finite s m)
  rw [held, quotient_eq] at byte
  have truncated : ((family.toByte (.finite s m)).toNat : Int)
      = Max.max 0 (Min.min 255 (signed s (quotient.units / oneUnits))) := byte
  rw [← units_eq]
  rcases sign with rfl | zero
  · rw [signed, if_neg Bool.false_ne_true] at truncated
    generalize quotient.units / oneUnits = steps at *
    omega
  · -- a negative zero is sent as zero is
    have nothing : quotient.units / oneUnits = 0 := by
      rw [units_eq, raised, zero, Nat.zero_mul, roundUnits_zero,
        roundUnits_zero, Nat.zero_div]
    rw [nothing] at truncated ⊢
    have sized := natAbs_signed s 0
    omega

/-- The rounded multiple of a value in range lies from the boundary of its
    byte on and left of the next. -/
theorem raised_mem {s : Bool} {m : Magnitude}
    (least : 0 ≤ Binary32.finite s m) (most : .finite s m ≤ family.max)
    (sign : s = false ∨ m.units = 0)
    (size : m.units ≤ family.limit <<< 149) :
    let steps := family.toByte (.finite s m)
    family.boundary steps.toNat ≤ raised m.units
      ∧ raised m.units < family.boundary (steps.toNat + 1) := by
  intro steps
  have steps_lt := steps.toNat_lt
  have byte : steps.toNat
      = roundUnits (raised m.units) family.limit / oneUnits :=
    family.toNat_toByte_finite least most sign size
  constructor
  · refine (family.boundary_le_iff (by omega) m.units).mpr ?_
    exact le_div_oneUnits_iff.mp (Nat.le_of_eq byte)
  · refine Nat.lt_of_not_le ?_
    intro reached
    have divided := (family.boundary_le_iff (by omega) m.units).mp reached
    have more := le_div_oneUnits_iff.mpr divided
    omega

end Scaled

namespace Codec

/-- Scaled bytes truncate and stay within one step: what arrives of a value
    in range does not exceed it, and falls short of it by at most the 255th
    part of the greatest value, without any slack for rounding. -/
theorem send_scaled_truncates (family : Scaled) {value : Binary32}
    (least : 0 ≤ value) (most : value ≤ family.max) :
    ∃ (arrived : Binary32) (v w top : Rat),
      (typed (.scaled family)).transmit value = pure arrived
        ∧ value.toRat? = some v ∧ arrived.toRat? = some w
        ∧ family.max.toRat? = some top
        ∧ 0 ≤ v - w ∧ v - w ≤ top / 255 := by
  obtain ⟨s, m, rfl, sign, size⟩ := family.finite_of_mem least most
  obtain ⟨reached, left⟩ := family.raised_mem least most sign size
  let steps := family.toByte (.finite s m)
  have steps_le : steps.toNat ≤ 255 := Nat.le_of_lt_succ steps.toNat_lt
  have upper := family.quantity_le steps_le m.representable.2 reached
  have lower := family.le_quantity m.representable.2 left
  have exact_value : mkRat (signed s m.units) oneUnits
      = (m.units : Rat) / 2 ^ 149 := by
    rw [mkRat_signed]
    rcases sign with rfl | zero
    · rfl
    · rw [zero, Nat.cast_zero, zero_div, neg_zero, ite_self]
  have arrived : (family.ofByte steps).toRat?
      = some ((family.quantity steps.toNat : Rat) / 2 ^ 149) := by
    rw [Scaled.ofByte_eq, ofUnitRatio, dif_pos (family.quantity_lt steps)]
    show some (mkRat (signed false _) oneUnits) = _
    rw [mkRat_signed]
    rfl
  have top : family.max.toRat? = some (family.limit : Rat) := by
    rw [family.max_eq, ofNat_eq family.limit_small, toRat?_whole]
    rfl
  refine ⟨family.ofByte steps, _, _, _, ?_, congrArg some exact_value,
    arrived, top, ?_, ?_⟩
  · rw [transmit_eq, received_scaled]
  · have upper_rat : (family.quantity steps.toNat : Rat) ≤ m.units := by
      exact_mod_cast upper
    rw [sub_nonneg]
    exact div_le_div_of_nonneg_right upper_rat (by positivity)
  · have lower_rat : (m.units : Rat) * 255
        ≤ family.quantity steps.toNat * 255 + family.limit * 2 ^ 149 := by
      rw [Nat.shiftLeft_eq] at lower
      exact_mod_cast lower
    rw [← sub_div, div_le_div_iff₀ (by positivity) (by positivity), sub_mul]
    exact sub_le_iff_le_add'.mpr lower_rat

/-- An angle that loses nearly a step: the next number above it is sent as
    the next byte. -/
theorem send_scaled_truncates_before_step :
    ∃ (arrived : Binary32) (v w top : Rat),
      (typed (.scaled .angle)).transmit (129.88234 : Binary32) = pure arrived
        ∧ (129.88234 : Binary32).toRat? = some v ∧ arrived.toRat? = some w
        ∧ Scaled.angle.max.toRat? = some top
        ∧ 0 ≤ v - w ∧ v - w ≤ top / 255 :=
  send_scaled_truncates .angle (by decide +kernel) (by decide +kernel)

end Codec

end Fieldbus
