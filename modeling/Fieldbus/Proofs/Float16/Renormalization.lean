import Fieldbus.Float16

/-! # What renormalization keeps of a count

    Renormalizing halves a count until it fits the mantissa.  The exponent
    and the mantissa it ends with stand for a count again, the one that is
    kept.  The facts about it are inductions on the room for exponents:

    * the kept count lies between zero and the count, and less than the
      last bit of the mantissa is lost (`cut_kept`);
    * a larger count never keeps less (`kept_mono`), because the first
      halved counts on either side are worth no less than the last ones
      that fit;
    * a count that some mantissa and exponent stand for is kept
      (`kept_shiftLeft`);
    * with counts in the range of the greatest exponent the mantissa fits
      (`mantissa_fits`). -/

namespace Fieldbus

open Binary32

namespace Float16

/-- The mantissas under their sign that a float can have. -/
def Fits (mantissa : Int) : Prop :=
  minMantissa ≤ mantissa ∧ mantissa ≤ maxMantissa

instance (mantissa : Int) : Decidable (Fits mantissa) :=
  inferInstanceAs (Decidable (_ ∧ _))

/-- The whole hundredths a float stands for, before they are rounded to a
    binary32 number. -/
def count (float : Float16) : Int :=
  float.signedMantissa <<< float.exponent.val

/-- The count that renormalizing another one ends with. -/
def kept (room : Nat) (count : Int) : Int :=
  (renormalize room count).2 <<< (renormalize room count).1.val

/-- Some count, cut toward zero by less than the given loss. -/
def CutBy (loss whole part : Int) : Prop :=
  (0 ≤ part ∧ part ≤ whole ∧ whole < part + loss)
    ∨ (part ≤ 0 ∧ whole ≤ part ∧ part - loss < whole)

/-! ## One halving -/

/-- Halving toward zero, by sign. -/
theorem tdiv_two_cases (n : Int) :
    (0 ≤ n ∧ n.tdiv 2 = n / 2) ∨ (n < 0 ∧ n.tdiv 2 = -(-n / 2)) := by
  by_cases sign : 0 ≤ n
  · exact Or.inl ⟨sign, Int.tdiv_eq_ediv_of_nonneg sign⟩
  · refine Or.inr ⟨by omega, ?_⟩
    have mirrored : (-n).tdiv 2 = -n / 2 :=
      Int.tdiv_eq_ediv_of_nonneg (by omega)
    rw [← mirrored, Int.neg_tdiv, Int.neg_neg]

/-- Halving respects the order. -/
theorem tdiv_two_mono {m n : Int} (le : m ≤ n) : m.tdiv 2 ≤ n.tdiv 2 :=
  Int.tdiv_le_tdiv (by decide) le

/-- A halved cut loses twice as much. -/
theorem CutBy.double {loss whole part : Int}
    (cut : CutBy loss (whole.tdiv 2) part) :
    CutBy (loss * 2) whole (part * 2) := by
  have half := tdiv_two_cases whole
  rcases cut with above | below
  · rcases half with positive | negative
    · exact Or.inl (by omega)
    · -- halving lost a whole negative one: nothing is left of it
      exact Or.inr (by omega)
  · rcases half with positive | negative
    · exact Or.inl (by omega)
    · exact Or.inr (by omega)

/-- What is cut toward zero does not grow. -/
theorem CutBy.natAbs_le {loss whole part : Int} (cut : CutBy loss whole part) :
    part.natAbs ≤ whole.natAbs := by
  rcases cut with above | below
  · omega
  · omega

/-- Less than the loss is cut off. -/
theorem CutBy.natAbs_lt {loss whole part : Int} (cut : CutBy loss whole part) :
    whole.natAbs < part.natAbs + loss.natAbs := by
  rcases cut with above | below
  · omega
  · omega

/-- What is left has the sign of the whole, or nothing is left. -/
theorem CutBy.sign {loss part : Int} {s : Bool} {size : Nat}
    (cut : CutBy loss (signed s size) part) :
    part = 0 ∨ decide (part < 0) = s := by
  cases s with
  | false =>
      have whole : signed false size = size := rfl
      rw [whole] at cut
      have nonneg : ¬ part < 0 := by
        rcases cut with above | below
        · omega
        · omega
      exact Or.inr (decide_eq_false nonneg)
  | true =>
      have whole : signed true size = -(size : Int) := rfl
      rw [whole] at cut
      rcases Int.lt_or_le part 0 with neg | nonneg
      · exact Or.inr (decide_eq_true neg)
      · refine Or.inl ?_
        rcases cut with above | below
        · omega
        · omega

/-! ## The steps of renormalization -/

variable {room : Nat} {n : Int}

/-- A count that fits is left as it is. -/
theorem renormalize_of_fits (room : Nat) (fits : Fits n) :
    renormalize room n = (0, n) := by
  cases room with
  | zero => rfl
  | succ room => exact if_pos fits

/-- A count that does not fit is halved first. -/
theorem renormalize_succ (room : Nat) (large : ¬ Fits n) :
    renormalize (room + 1) n
      = ((renormalize room (n.tdiv 2)).1.succ,
        (renormalize room (n.tdiv 2)).2) := if_neg large

/-- Without room the count is kept. -/
theorem kept_zero (n : Int) : kept 0 n = n := Int.shiftLeft_zero n

/-- A count that fits is kept. -/
theorem kept_of_fits (room : Nat) (fits : Fits n) : kept room n = n := by
  rw [kept, renormalize_of_fits room fits]
  exact Int.shiftLeft_zero n

/-- Of a count that does not fit, twice of what its half keeps is kept. -/
theorem kept_succ (room : Nat) (large : ¬ Fits n) :
    kept (room + 1) n = kept room (n.tdiv 2) * 2 := by
  rw [kept, renormalize_succ room large]
  exact Int.shiftLeft_succ _ _

/-! ## Whole renormalizations -/

/-- The count is cut toward zero, by less than the last bit of the
    mantissa. -/
theorem cut_kept (room : Nat) (n : Int) :
    CutBy ((1 : Int) <<< (renormalize room n).1.val) n (kept room n) := by
  induction room generalizing n with
  | zero =>
      have one : (1 : Int) <<< (renormalize 0 n).1.val = 1 := rfl
      rw [one, kept_zero, CutBy]
      omega
  | succ room ih =>
      by_cases fits : Fits n
      · have one : (1 : Int) <<< (renormalize (room + 1) n).1.val = 1 := by
          rw [renormalize_of_fits _ fits]
          rfl
        rw [one, kept_of_fits _ fits, CutBy]
        omega
      · have loss : (1 : Int) <<< (renormalize (room + 1) n).1.val
            = 1 <<< (renormalize room (n.tdiv 2)).1.val * 2 := by
          rw [renormalize_succ room fits]
          exact Int.shiftLeft_succ _ _
        rw [loss, kept_succ room fits]
        exact (ih (n.tdiv 2)).double

/-- A larger count never keeps less. -/
theorem kept_mono (room : Nat) {m n : Int} (le : m ≤ n) :
    kept room m ≤ kept room n := by
  induction room generalizing m n with
  | zero =>
      rw [kept_zero, kept_zero]
      exact le
  | succ room ih =>
      by_cases fits_m : Fits m
      · rw [kept_of_fits _ fits_m]
        by_cases fits_n : Fits n
        · rw [kept_of_fits _ fits_n]
          exact le
        · -- the least count above the range keeps all of its 2048
          have above : maxMantissa < n := by
            have := fits_m.1
            simp only [Fits] at fits_n
            omega
          have half : 1024 ≤ n.tdiv 2 := by
            have := tdiv_two_mono (show 2048 ≤ n from above)
            exact this
          have kept_half := ih half
          rw [kept_of_fits room (show Fits 1024 by decide)] at kept_half
          have small : m ≤ 2047 := fits_m.2
          rw [kept_succ room fits_n]
          omega
      · rw [kept_succ room fits_m]
        by_cases fits_n : Fits n
        · -- the greatest count below the range keeps no less than -2048
          have below : m < minMantissa := by
            have := fits_n.2
            simp only [Fits] at fits_m
            omega
          have half : m.tdiv 2 ≤ -1024 := by
            have := tdiv_two_mono (show m ≤ -2049 from by
              have bound : m < -2048 := below
              omega)
            exact this
          have kept_half := ih half
          rw [kept_of_fits room (show Fits (-1024) by decide)] at kept_half
          have large : -2048 ≤ n := fits_n.1
          rw [kept_of_fits _ fits_n]
          omega
        · have halves := ih (tdiv_two_mono le)
          rw [kept_succ room fits_n]
          omega

/-- A count that a mantissa and an exponent stand for is kept. -/
theorem kept_shiftLeft {mantissa : Int} (fits : Fits mantissa)
    {exponent : Nat} (le : exponent ≤ room) :
    kept room (mantissa <<< exponent) = mantissa <<< exponent := by
  induction exponent generalizing room with
  | zero =>
      rw [Int.shiftLeft_zero]
      exact kept_of_fits room fits
  | succ exponent ih =>
      by_cases whole : Fits (mantissa <<< (exponent + 1))
      · exact kept_of_fits room whole
      · obtain ⟨room, rfl⟩ : ∃ r, room = r + 1 := ⟨room - 1, by omega⟩
        have half : (mantissa <<< (exponent + 1)).tdiv 2
            = mantissa <<< exponent := by
          rw [Int.shiftLeft_succ]
          exact Int.mul_tdiv_cancel _ (by decide)
        rw [kept_succ room whole, half, ih (by omega), Int.shiftLeft_succ]

/-- In the range of the greatest exponent the mantissa fits. -/
theorem mantissa_fits (least : minMantissa <<< room ≤ n)
    (most : n < (maxMantissa + 1) <<< room) :
    Fits (renormalize room n).2 := by
  induction room generalizing n with
  | zero =>
      rw [Int.shiftLeft_zero] at least most
      exact ⟨least, Int.le_of_lt_add_one most⟩
  | succ room ih =>
      by_cases fits : Fits n
      · rw [renormalize_of_fits _ fits]
        exact fits
      · rw [renormalize_succ room fits]
        rw [Int.shiftLeft_succ] at least most
        have half := tdiv_two_cases n
        have least_nonpos : minMantissa <<< room ≤ 0 := by
          rw [Int.shiftLeft_eq]
          exact Int.mul_nonpos_of_nonpos_of_nonneg (by decide)
            (Int.le_of_lt (Int.pow_pos (by decide)))
        have most_pos : 0 < (maxMantissa + 1) <<< room := by
          rw [Int.shiftLeft_eq]
          exact Int.mul_pos (by decide) (Int.pow_pos (by decide))
        exact ih (by omega) (by omega)

end Float16

end Fieldbus
