import Fieldbus.Binary32.Basic

/-! # The order of binary32 numbers

    Two numbers compare as their places on the number line do, so an order
    fact is a fact about whole numbers of least steps.  Holding a number in
    a range and taking its whole part both respect the order; not-a-number
    has no place, and the facts leave it out. -/

namespace Fieldbus

namespace Binary32

variable {x y z lo hi : Binary32} {a b c : Int}

/-- Only not-a-number has no place. -/
theorem eq_nan_or_position (x : Binary32) :
    x = nan ∨ ∃ a, x.position? = some a := by
  cases x with
  | nan => exact Or.inl rfl
  | infinity s => exact Or.inr ⟨_, rfl⟩
  | finite s m => exact Or.inr ⟨_, rfl⟩

/-- Two numbers compare as their places do. -/
theorem compare?_of_position (hx : x.position? = some a)
    (hy : y.position? = some b) : x.compare? y = some (compare a b) := by
  rw [compare?, hx, hy]

/-- Without a place there is no comparison. -/
theorem position_of_compare? {order : Ordering}
    (compared : x.compare? y = some order) :
    ∃ a b, x.position? = some a ∧ y.position? = some b
      ∧ compare a b = order := by
  unfold compare? at compared
  split at compared
  · next a b hx hy =>
      exact ⟨a, b, hx, hy, Option.some.inj compared⟩
  · exact nomatch compared

/-- Places decide whether a number is below another. -/
theorem lt_iff_of_position (hx : x.position? = some a)
    (hy : y.position? = some b) : x < y ↔ a < b := by
  show x.compare? y = some .lt ↔ a < b
  rw [compare?_of_position hx hy, Option.some.injEq]
  exact Int.compare_eq_lt

/-- Places decide whether a number is at most another. -/
theorem le_iff_of_position (hx : x.position? = some a)
    (hy : y.position? = some b) : x ≤ y ↔ a ≤ b := by
  show x.compare? y = some .lt ∨ x.compare? y = some .eq ↔ a ≤ b
  rw [compare?_of_position hx hy, Option.some.injEq, Option.some.injEq,
    Int.compare_eq_lt, Int.compare_eq_eq]
  omega

/-- Places decide numerical equality. -/
theorem numEq_iff_of_position (hx : x.position? = some a)
    (hy : y.position? = some b) : x.numEq y = true ↔ a = b := by
  rw [numEq, compare?_of_position hx hy, beq_iff_eq, Option.some.injEq]
  exact Int.compare_eq_eq

/-- Compared numbers have places. -/
theorem position_of_le (le : x ≤ y) :
    ∃ a b, x.position? = some a ∧ y.position? = some b ∧ a ≤ b := by
  have compared : ∃ order, x.compare? y = some order := by
    rcases le with lt | eq
    · exact ⟨_, lt⟩
    · exact ⟨_, eq⟩
  obtain ⟨order, compared⟩ := compared
  obtain ⟨a, b, hx, hy, -⟩ := position_of_compare? compared
  exact ⟨a, b, hx, hy, (le_iff_of_position hx hy).mp le⟩

/-- The order is transitive. -/
protected theorem le_trans (xy : x ≤ y) (yz : y ≤ z) : x ≤ z := by
  obtain ⟨a, b, hx, hy, ab⟩ := position_of_le xy
  obtain ⟨b', c, hy', hz, bc⟩ := position_of_le yz
  have same : b = b' := Option.some.inj (hy.symm.trans hy')
  exact (le_iff_of_position hx hz).mpr (by omega)

/-! ## Signed sizes -/

/-- Applying a monotone function that keeps zero to the size of a number,
    under its sign, respects the order. -/
theorem signed_le_signed {f : Nat → Nat} (zero : f 0 = 0)
    (mono : ∀ m n, m ≤ n → f m ≤ f n) {s t : Bool} {m n : Nat}
    (le : signed s m ≤ signed t n) : signed s (f m) ≤ signed t (f n) := by
  cases s with
  | false =>
      cases t with
      | false =>
          have sizes : (m : Int) ≤ n := le
          have grown := mono m n (by omega)
          show (f m : Int) ≤ f n
          omega
      | true =>
          -- nothing but zero lies on both sides
          have sizes : (m : Int) ≤ -n := le
          have m_zero : m = 0 := by omega
          have n_zero : n = 0 := by omega
          rw [m_zero, n_zero, zero]
          exact Int.le_refl 0
  | true =>
      cases t with
      | false =>
          show -(f m : Int) ≤ f n
          omega
      | true =>
          have sizes : -(m : Int) ≤ -n := le
          have grown := mono n m (by omega)
          show -(f m : Int) ≤ -(f n)
          omega

/-- The size of a signed number. -/
theorem natAbs_signed (s : Bool) (n : Nat) : (signed s n).natAbs = n := by
  cases s with
  | false => exact Int.natAbs_natCast n
  | true =>
      show (-(n : Int)).natAbs = n
      rw [Int.natAbs_neg, Int.natAbs_natCast]

/-- No place lies beyond the infinities. -/
theorem position_mem (hx : x.position? = some a) :
    signed true limitUnits ≤ a ∧ a ≤ signed false limitUnits := by
  cases x with
  | nan => exact nomatch hx
  | infinity s =>
      have place : signed s limitUnits = a := Option.some.inj hx
      subst place
      cases s with
      | false => exact ⟨by decide, Int.le_refl _⟩
      | true => exact ⟨Int.le_refl _, by decide⟩
  | finite s magnitude =>
      have place : signed s magnitude.units = a := Option.some.inj hx
      have bounded : magnitude.units < limitUnits :=
        magnitude.representable.1
      subst place
      cases s with
      | false =>
          refine ⟨?_, ?_⟩
          · show -(limitUnits : Int) ≤ magnitude.units
            omega
          · show (magnitude.units : Int) ≤ limitUnits
            omega
      | true =>
          refine ⟨?_, ?_⟩
          · show -(limitUnits : Int) ≤ -(magnitude.units : Int)
            omega
          · show -(magnitude.units : Int) ≤ limitUnits
            omega

/-- Ordered numbers are finite, unless the lesser one is the least of all
    or the greater one the greatest. -/
theorem le_cases (le : x ≤ y) :
    x = .infinity true ∨ y = .infinity false
      ∨ ∃ s m t n, x = .finite s m ∧ y = .finite t n
        ∧ signed s m.units ≤ signed t n.units := by
  obtain ⟨a, b, hx, hy, ab⟩ := position_of_le le
  have limit_pos : 0 < limitUnits := by decide
  cases x with
  | nan => exact nomatch hx
  | infinity s =>
      cases s with
      | true => exact Or.inl rfl
      | false =>
          have top : (limitUnits : Int) = a := Option.some.inj hx
          cases y with
          | nan => exact nomatch hy
          | infinity t =>
              cases t with
              | false => exact Or.inr (Or.inl rfl)
              | true =>
                  have bottom : -(limitUnits : Int) = b := Option.some.inj hy
                  omega
          | finite t n =>
              have bounded : n.units < limitUnits := n.representable.1
              have place : signed t n.units = b := Option.some.inj hy
              have size := natAbs_signed t n.units
              omega
  | finite s m =>
      have place : signed s m.units = a := Option.some.inj hx
      have size := natAbs_signed s m.units
      have bounded : m.units < limitUnits := m.representable.1
      cases y with
      | nan => exact nomatch hy
      | infinity t =>
          cases t with
          | false => exact Or.inr (Or.inl rfl)
          | true =>
              have bottom : -(limitUnits : Int) = b := Option.some.inj hy
              omega
      | finite t n =>
          have place' : signed t n.units = b := Option.some.inj hy
          exact Or.inr (Or.inr ⟨s, m, t, n, rfl, rfl, by omega⟩)

/-! ## Holding in a range -/

/-- The place of a number held in a range. -/
theorem position?_clamp (hx : x.position? = some a)
    (hlo : lo.position? = some b) (hhi : hi.position? = some c)
    (ordered : b ≤ c) :
    (x.clamp lo hi).position? = some (max b (min c a)) := by
  rw [clamp]
  by_cases below : x < lo
  · have a_lt := (lt_iff_of_position hx hlo).mp below
    have inside : ¬ hi < lo := by
      rw [lt_iff_of_position hhi hlo]
      omega
    simp only [if_pos below, if_neg inside, hlo, Option.some.injEq]
    omega
  · have le_a : ¬ a < b := fun lt => below ((lt_iff_of_position hx hlo).mpr lt)
    by_cases above : hi < x
    · have c_lt := (lt_iff_of_position hhi hx).mp above
      simp only [if_neg below, if_pos above, hhi, Option.some.injEq]
      omega
    · have a_le : ¬ c < a :=
        fun lt => above ((lt_iff_of_position hhi hx).mpr lt)
      simp only [if_neg below, if_neg above, hx, Option.some.injEq]
      omega

/-- Holding in a range respects the order. -/
theorem clamp_mono (range : lo ≤ hi) (le : x ≤ y) :
    x.clamp lo hi ≤ y.clamp lo hi := by
  obtain ⟨b, c, hlo, hhi, ordered⟩ := position_of_le range
  obtain ⟨a, a', hx, hy, a_le⟩ := position_of_le le
  refine (le_iff_of_position (position?_clamp hx hlo hhi ordered)
    (position?_clamp hy hlo hhi ordered)).mpr ?_
  omega

/-- What lies in the range is held as it is. -/
theorem clamp_of_mem (lo_le : lo ≤ x) (le_hi : x ≤ hi) :
    x.clamp lo hi = x := by
  obtain ⟨b, a, hlo, hx, b_le⟩ := position_of_le lo_le
  obtain ⟨a', c, hx', hhi, le_c⟩ := position_of_le le_hi
  have same : a = a' := Option.some.inj (hx.symm.trans hx')
  have above : ¬ x < lo := by
    rw [lt_iff_of_position hx hlo]
    omega
  have below : ¬ hi < x := by
    rw [lt_iff_of_position hhi hx]
    omega
  rw [clamp]
  simp only [if_neg above, if_neg below]

/-- What is held in a range lies in it. -/
theorem clamp_mem (range : lo ≤ hi) (hx : x.position? = some a) :
    lo ≤ x.clamp lo hi ∧ x.clamp lo hi ≤ hi := by
  obtain ⟨b, c, hlo, hhi, ordered⟩ := position_of_le range
  have held := position?_clamp hx hlo hhi ordered
  refine ⟨(le_iff_of_position hlo held).mpr ?_,
    (le_iff_of_position held hhi).mpr ?_⟩
  · omega
  · omega

/-- Not-a-number stays what it is in every range. -/
theorem clamp_nan (lo hi : Binary32) : nan.clamp lo hi = nan := by
  have above : ¬ nan < lo := by
    intro lt
    obtain ⟨a, b, none, -⟩ := position_of_compare? lt
    exact nomatch none
  have below : ¬ hi < nan := by
    intro lt
    obtain ⟨a, b, -, none, -⟩ := position_of_compare? lt
    exact nomatch none
  rw [clamp]
  simp only [if_neg above, if_neg below]

/-- Holding in a range a second time changes nothing. -/
theorem clamp_clamp (range : lo ≤ hi) (x : Binary32) :
    (x.clamp lo hi).clamp lo hi = x.clamp lo hi := by
  rcases x.eq_nan_or_position with rfl | ⟨a, hx⟩
  · rw [clamp_nan, clamp_nan]
  · obtain ⟨above, below⟩ := clamp_mem range hx
    exact clamp_of_mem above below

/-- A number below the range is held at its lower bound. -/
theorem clamp_of_lt (range : lo ≤ hi) (below : x < lo) :
    x.clamp lo hi = lo := by
  obtain ⟨b, c, hlo, hhi, ordered⟩ := position_of_le range
  have inside : ¬ hi < lo := by
    rw [lt_iff_of_position hhi hlo]
    omega
  rw [clamp]
  simp only [if_pos below, if_neg inside]

/-- A number above the range is held at its upper bound. -/
theorem clamp_of_gt (range : lo ≤ hi) (above : hi < x) :
    x.clamp lo hi = hi := by
  obtain ⟨b, c, hlo, hhi, ordered⟩ := position_of_le range
  obtain ⟨c', a, hhi', hx, -⟩ := position_of_compare? above
  have same : c = c' := Option.some.inj (hhi.symm.trans hhi')
  have lt := (lt_iff_of_position hhi hx).mp above
  have inside : ¬ x < lo := by
    rw [lt_iff_of_position hx hlo]
    omega
  rw [clamp]
  simp only [if_neg inside, if_pos above]

/-! ## Whole parts -/

/-- The whole part of a number is held between the bounds. -/
theorem truncate_mem {least most : Int} (range : least ≤ most)
    (hx : x.position? = some a) :
    least ≤ x.truncate least most ∧ x.truncate least most ≤ most := by
  cases x with
  | nan => exact nomatch hx
  | infinity s =>
      cases s with
      | false => exact ⟨range, Int.le_refl _⟩
      | true => exact ⟨Int.le_refl _, range⟩
  | finite s magnitude =>
      show least ≤ max least (min most _) ∧ max least (min most _) ≤ most
      omega

/-- Taking the whole part respects the order. -/
theorem truncate_mono {least most : Int} (range : least ≤ most)
    (le : x ≤ y) : x.truncate least most ≤ y.truncate least most := by
  obtain ⟨a, b, hx, hy, -⟩ := position_of_le le
  rcases le_cases le with bottom | top | ⟨s, m, t, n, rfl, rfl, places⟩
  · rw [bottom]
    exact (truncate_mem range hy).1
  · rw [top]
    exact (truncate_mem range hx).2
  · have parts := signed_le_signed (f := (· / oneUnits))
      (Nat.zero_div _) (fun _ _ le => Nat.div_le_div_right le) places
    show max least (min most (signed s (m.units / oneUnits)))
      ≤ max least (min most (signed t (n.units / oneUnits)))
    omega

end Binary32

end Fieldbus
