import Mathlib.Order.Bounds.Defs
import Fieldbus.Proofs.Float16.Encoding

/-! # The closed form of encoding — one truncating division

    Renormalization halves step by step.  What it computes can be said in
    one step: the exponent is the least one at which the count, divided by
    its power of two toward zero, fits the mantissa, and the mantissa is
    that quotient.

    The loop is closed up by two inductions on the room.  Halvings toward
    zero compose to one division (`tdiv_tdiv`), and a quotient that fits
    still fits when it is divided again (`Fits.tdiv`), so the exponents
    that are large enough are an upper segment.  None of the safeguards of
    encoding ever acts: not the bounds of the whole part, not the greatest
    exponent, not the holding of the mantissa in its range. -/

namespace Fieldbus

open Binary32

/-! ## Whole parts without bounds -/

/-- The whole part toward zero, however large.  Infinities have none, and
    not-a-number counts as zero. -/
def Binary32.wholePart? : Binary32 → Option Int
  | .nan => some 0
  | .infinity _ => none
  | .finite negative magnitude =>
      some (signed negative (magnitude.units / oneUnits))

/-- A whole part strictly inside the bounds was not held by them. -/
theorem Binary32.wholePart?_of_truncate {x : Binary32} {least most : Int}
    (above : least < x.truncate least most)
    (below : x.truncate least most < most) :
    x.wholePart? = some (x.truncate least most) := by
  cases x with
  | nan => rfl
  | infinity negative =>
      cases negative with
      | false => exact absurd below (Int.lt_irrefl most)
      | true => exact absurd above (Int.lt_irrefl least)
  | finite negative magnitude =>
      have held : (finite negative magnitude).truncate least most
          = max least
            (min most (signed negative (magnitude.units / oneUnits))) := rfl
      rw [held] at above below ⊢
      rw [wholePart?, Option.some.injEq]
      omega

namespace Float16

variable {room : Nat} {n : Int}

/-! ## Dividing toward zero, twice -/

/-- Two divisions toward zero are one by the product. -/
theorem tdiv_tdiv (n : Int) {a : Int} (pos : 0 ≤ a) (b : Int) :
    (n.tdiv a).tdiv b = n.tdiv (a * b) := by
  have nonneg : ∀ m : Int, 0 ≤ m →
      (m.tdiv a).tdiv b = m.tdiv (a * b) := by
    intro m sign
    rw [Int.tdiv_eq_ediv_of_nonneg sign,
      Int.tdiv_eq_ediv_of_nonneg (Int.ediv_nonneg sign pos),
      Int.tdiv_eq_ediv_of_nonneg sign, Int.ediv_ediv_of_nonneg pos]
  rcases Int.le_total 0 n with sign | sign
  · exact nonneg n sign
  · -- a negative number is divided as its opposite is
    have mirrored := nonneg (-n) (Int.neg_nonneg_of_nonpos sign)
    rw [Int.neg_tdiv, Int.neg_tdiv, Int.neg_tdiv] at mirrored
    exact Int.neg_inj.mp mirrored

/-- Halving first and dividing by a power of two is dividing by the next. -/
theorem tdiv_two_tdiv (n : Int) (e : Nat) :
    (n.tdiv 2).tdiv ((1 : Int) <<< e) = n.tdiv ((1 : Int) <<< (e + 1)) := by
  rw [tdiv_tdiv n (by decide), Int.shiftLeft_succ, Int.mul_comm]

/-- What fits still fits when it is divided. -/
theorem Fits.tdiv (fits : Fits n) {d : Int} (nonneg : 0 ≤ d) :
    Fits (n.tdiv d) := by
  obtain ⟨least, most⟩ := fits
  have size := Int.natAbs_tdiv_le_natAbs n d
  simp only [Fits, minMantissa, maxMantissa] at least most ⊢
  -- the size alone would not do, because the range is not symmetric
  rcases Int.le_total 0 n with sign | sign
  · have same := Int.tdiv_nonneg sign nonneg
    omega
  · have mirrored := Int.tdiv_nonneg (Int.neg_nonneg_of_nonpos sign) nonneg
    rw [Int.neg_tdiv] at mirrored
    omega

/-- Powers of two are not negative. -/
theorem one_shiftLeft_nonneg (e : Nat) : 0 ≤ (1 : Int) <<< e := by
  rw [Int.shiftLeft_eq, Int.one_mul]
  exact Int.le_of_lt (Int.pow_pos (by decide))

/-! ## The loop in closed form -/

/-- The mantissa is a single quotient by the exponent's power of two. -/
theorem mantissa_eq_tdiv (room : Nat) (n : Int) :
    (renormalize room n).2 = n.tdiv ((1 : Int) <<< (renormalize room n).1.val) := by
  induction room generalizing n with
  | zero => exact (Int.tdiv_one n).symm
  | succ room ih =>
      by_cases fits : Fits n
      · rw [renormalize_of_fits _ fits]
        exact (Int.tdiv_one n).symm
      · rw [renormalize_succ room fits, Fin.val_succ, ← tdiv_two_tdiv]
        exact ih (n.tdiv 2)

/-- Once renormalization ends with a mantissa that fits, its exponent and
    all greater ones are the ones whose quotients fit. -/
theorem fits_tdiv_iff (fits : Fits (renormalize room n).2) (e : Nat) :
    Fits (n.tdiv ((1 : Int) <<< e)) ↔ (renormalize room n).1.val ≤ e := by
  induction room generalizing n e with
  | zero => exact iff_of_true (fits.tdiv (one_shiftLeft_nonneg e)) (Nat.zero_le e)
  | succ room ih =>
      by_cases whole : Fits n
      · rw [renormalize_of_fits _ whole]
        exact iff_of_true (whole.tdiv (one_shiftLeft_nonneg e)) (Nat.zero_le e)
      · rw [renormalize_succ room whole] at fits ⊢
        cases e with
        | zero =>
            refine iff_of_false ?_ (Nat.not_succ_le_zero _)
            rw [Int.shiftLeft_zero, Int.tdiv_one]
            exact whole
        | succ e =>
            rw [← tdiv_two_tdiv, ih fits e, Fin.val_succ]
            exact Nat.succ_le_succ_iff.symm

/-- A mantissa that fits is not halved further, however much room there
    is. -/
theorem renormalize_of_room (fits : Fits (renormalize room n).2) {more : Nat}
    (le : room ≤ more) :
    (renormalize more n).1.val = (renormalize room n).1.val
      ∧ (renormalize more n).2 = (renormalize room n).2 := by
  induction room generalizing n more with
  | zero =>
      rw [renormalize_of_fits more (show Fits n from fits)]
      exact ⟨rfl, rfl⟩
  | succ room ih =>
      by_cases whole : Fits n
      · rw [renormalize_of_fits more whole, renormalize_of_fits _ whole]
        exact ⟨rfl, rfl⟩
      · obtain ⟨more, rfl⟩ : ∃ m, more = m + 1 := ⟨more - 1, by omega⟩
        rw [renormalize_succ room whole] at fits ⊢
        rw [renormalize_succ more whole]
        obtain ⟨exponents, mantissas⟩ := ih fits (Nat.le_of_succ_le_succ le)
        refine ⟨?_, mantissas⟩
        rw [Fin.val_succ, Fin.val_succ, exponents]

/-! ## Encoding in closed form -/

variable (value : Binary32)

/-- The hundredths of a value are the whole part of the held hundredfold,
    which never meets the bounds of the integers it is cut to. -/
theorem wholePart?_hundredfold :
    (value.clamp minValue maxValue * (100 : Binary32)).wholePart?
      = some (hundredths value) := by
  have least : minMantissa <<< maxExponent = -0x4000000 := rfl
  have most : (maxMantissa + 1) <<< maxExponent = 0x4000000 := rfl
  obtain ⟨lower, upper⟩ := hundredths_mem value
  rw [least] at lower
  rw [most] at upper
  rw [hundredths] at lower upper ⊢
  exact wholePart?_of_truncate (by omega) (by omega)

/-- The field of the mantissa holds all of it, negative ones 2048 above. -/
theorem mantissa_eq_fold (float : Float16) :
    (float.mantissa.val : Int)
      = if float.signedMantissa < 0 then float.signedMantissa + 2048
        else float.signedMantissa := by
  have bound := float.mantissa.isLt
  rw [signedMantissa]
  split
  · omega
  · omega

/-- Every exponent from that of a value on has a quotient that fits, and no
    other has. -/
theorem exponent_encode_le_iff (e : Nat) :
    (encode value).exponent.val ≤ e
      ↔ Fits ((hundredths value).tdiv ((1 : Int) <<< e)) :=
  (fits_tdiv_iff (fits_renormalize_hundredths value) e).symm

/-- The mantissa of a value is its quotient by the power of its exponent. -/
theorem signedMantissa_encode_eq_tdiv :
    (encode value).signedMantissa
      = (hundredths value).tdiv
        ((1 : Int) <<< (encode value).exponent.val) := by
  rw [signedMantissa_encode, exponent_encode]
  exact mantissa_eq_tdiv maxExponent (hundredths value)

/-- A value that takes an exponent fills its mantissa at least by half: the
    quotient one exponent lower did not fit. -/
theorem natAbs_signedMantissa_encode_ge :
    (encode value).exponent.val = 0
      ∨ 1024 ≤ (encode value).signedMantissa.natAbs := by
  rw [signedMantissa_encode_eq_tdiv]
  cases taken : (encode value).exponent.val with
  | zero => exact Or.inl rfl
  | succ e =>
      refine Or.inr ?_
      have large : ¬ Fits ((hundredths value).tdiv ((1 : Int) <<< e)) := by
        rw [← exponent_encode_le_iff, taken]
        exact Nat.not_succ_le_self e
      rw [Int.shiftLeft_succ, ← tdiv_tdiv _ (one_shiftLeft_nonneg e)]
      have half := tdiv_two_cases
        ((hundredths value).tdiv ((1 : Int) <<< e))
      simp only [Fits, minMantissa, maxMantissa] at large
      omega

/-- Encoding in closed form.  Of the whole part of the held hundredfold,
    which is not cut to any bounds, a value keeps its quotient by the least
    power of two for which that fits, and at most the fifteenth is needed.
    More room for exponents would change nothing, holding the mantissa in
    its range changes nothing, and the field has room for what is folded
    into it. -/
theorem encode_closed_form :
    ∃ whole : Int,
      (value.clamp minValue maxValue * (100 : Binary32)).wholePart?
          = some whole
        ∧ hundredths value = whole
        ∧ IsLeast {e : Nat | Fits (whole.tdiv ((1 : Int) <<< e))}
          (encode value).exponent.val
        ∧ (encode value).exponent.val ≤ maxExponent
        ∧ (encode value).signedMantissa
          = whole.tdiv ((1 : Int) <<< (encode value).exponent.val)
        ∧ (∀ more, (renormalize (maxExponent + more) whole).1.val
              = (encode value).exponent.val
            ∧ (renormalize (maxExponent + more) whole).2
              = (encode value).signedMantissa)
        ∧ max minMantissa
            (min maxMantissa (renormalize maxExponent whole).2)
          = (renormalize maxExponent whole).2
        ∧ ((encode value).mantissa.val : Int)
          = if (encode value).signedMantissa < 0 then
              (encode value).signedMantissa + 2048
            else (encode value).signedMantissa := by
  have fits := fits_renormalize_hundredths value
  refine ⟨hundredths value, wholePart?_hundredfold value, rfl, ⟨?_, ?_⟩,
    Nat.le_of_lt_succ (Fin.isLt _), signedMantissa_encode_eq_tdiv value,
    ?_, ?_, mantissa_eq_fold _⟩
  · exact (exponent_encode_le_iff value _).mp (Nat.le_refl _)
  · intro e large
    exact (exponent_encode_le_iff value e).mpr large
  · intro more
    rw [signedMantissa_encode, exponent_encode]
    exact renormalize_of_room fits (Nat.le_add_right _ more)
  · obtain ⟨least, most⟩ := fits
    omega

/-- The range is not symmetric: one size fits on its negative side only. -/
example : (encode 20.48).exponent = 1 ∧ (encode (-20.48)).exponent = 0 := by
  decide +kernel

end Float16

end Fieldbus
