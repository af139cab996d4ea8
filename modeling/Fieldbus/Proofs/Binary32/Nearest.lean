import Fieldbus.Binary32.Arithmetic

/-! # The nearest representable magnitude

    Rounding is described from outside, without its last places:

    * a magnitude of the grid is never crossed: what lies on one side of it
      is rounded to that side (`le_roundUnits`, `roundUnits_le`);
    * so rounding is monotone, and keeps what is on the grid;
    * it misses by at most half a last place;
    * it commutes with powers of two, once there are 24 bits to keep.

    The grid is `ulp n ∣ n`: at most 24 significant bits, without a limit. -/

namespace Fieldbus

/-! ## Rounded quotients -/

/-- A larger numerator never has the smaller rounded quotient. -/
theorem roundDiv_mono {a b : Nat} (den : Nat) (le : a ≤ b) :
    roundDiv a den ≤ roundDiv b den := by
  have split_a := Nat.div_add_mod a den
  have split_b := Nat.div_add_mod b den
  have quotients : a / den ≤ b / den := Nat.div_le_div_right le
  rcases Nat.lt_or_eq_of_le quotients with below | same
  · calc roundDiv a den
        ≤ a / den + 1 := roundDiv_le_div_succ a den
      _ ≤ b / den := below
      _ ≤ roundDiv b den := div_le_roundDiv b den
  · -- equal whole parts: the remainders decide
    rw [same] at split_a
    have rests : a % den ≤ b % den := by omega
    simp only [roundDiv, same]
    split
    · split
      · exact Nat.le_refl _
      · split <;> omega
    · split
      · split
        · omega
        · split <;> omega
      · split
        · omega
        · split <;> omega

/-- A common factor cancels. -/
theorem roundDiv_mul_mul (num den : Nat) {c : Nat} (pos : 0 < c) :
    roundDiv (num * c) (den * c) = roundDiv num den := by
  have double : 2 * (num % den * c) = 2 * (num % den) * c :=
    (Nat.mul_assoc _ _ _).symm
  have below : 2 * (num % den) * c < den * c ↔ 2 * (num % den) < den :=
    Nat.mul_lt_mul_right pos
  have above : den * c < 2 * (num % den) * c ↔ den < 2 * (num % den) :=
    Nat.mul_lt_mul_right pos
  simp only [roundDiv, Nat.mul_div_mul_right _ _ pos, Nat.mul_mod_mul_right,
    double, below, above]

/-- A whole number below the quotient is below the rounded one. -/
theorem le_roundDiv {k num den : Nat} (pos : 0 < den) (le : k * den ≤ num) :
    k ≤ roundDiv num den :=
  Nat.le_trans ((Nat.le_div_iff_mul_le pos).mpr le) (div_le_roundDiv num den)

/-- A whole number above the quotient is above the rounded one. -/
theorem roundDiv_le {k num den : Nat} (pos : 0 < den) (le : num ≤ k * den) :
    roundDiv num den ≤ k := by
  have kept := roundDiv_mul_self k pos
  have mono := roundDiv_mono den le
  omega

/-- A quotient less than a half over a bound is not rounded beyond it. -/
theorem roundDiv_le_add {n c num den : Nat} (pos : 0 < den)
    (near : 2 * num < 2 * (n * den) + (2 * c + 1) * den) :
    roundDiv num den ≤ n + c := by
  have half := @roundDiv_mul_le num den pos
  refine Nat.le_of_lt_succ (Nat.lt_of_mul_lt_mul_right (a := den) ?_)
  calc roundDiv num den * den
      < n * den + (c + 1) * den := by
        rw [Nat.add_mul] at near ⊢
        rw [Nat.mul_assoc] at near
        omega
    _ = (n + c + 1) * den := by rw [← Nat.add_mul, Nat.add_assoc]

/-- A quotient less than a half under a bound is not rounded beyond it. -/
theorem le_roundDiv_add {n c num den : Nat} (pos : 0 < den)
    (near : 2 * (n * den) < 2 * num + (2 * c + 1) * den) :
    n ≤ roundDiv num den + c := by
  have half := @le_roundDiv_mul num den pos
  refine Nat.le_of_lt_succ (Nat.lt_of_mul_lt_mul_right (a := den) ?_)
  calc n * den
      < roundDiv num den * den + (c + 1) * den := by
        rw [Nat.add_mul] at near ⊢
        rw [Nat.mul_assoc] at near
        omega
    _ = (roundDiv num den + c + 1) * den := by
        rw [← Nat.add_mul, Nat.add_assoc]

namespace Binary32

/-! ## The grid -/

/-- Binades are in order. -/
theorem log2_mono {a b : Nat} (le : a ≤ b) : a.log2 ≤ b.log2 := by
  rcases Nat.eq_zero_or_pos a with zero | pos
  · rw [zero, Nat.log2_zero]
    exact Nat.zero_le _
  · have a_ne : a ≠ 0 := Nat.ne_of_gt pos
    have b_ne : b ≠ 0 := Nat.ne_of_gt (Nat.lt_of_lt_of_le pos le)
    exact (Nat.le_log2 b_ne).mpr (Nat.le_trans (Nat.log2_self_le a_ne) le)

/-- Higher binades have last places that are multiples of lower ones. -/
theorem ulp_dvd_ulp {a b : Nat} (le : a ≤ b) : ulp a ∣ ulp b := by
  have places := log2_mono le
  rw [ulp, ulp, Nat.one_shiftLeft, Nat.one_shiftLeft]
  exact Nat.pow_dvd_pow 2 (by omega)

/-- Higher binades have larger last places. -/
theorem ulp_mono {a b : Nat} (le : a ≤ b) : ulp a ≤ ulp b :=
  Nat.le_of_dvd (ulp_pos b) (ulp_dvd_ulp le)

/-- A magnitude of the grid is a multiple of every smaller last place. -/
theorem ulp_dvd_of_grid {low n : Nat} (grid : ulp n ∣ n) (le : low ≤ n) :
    ulp low ∣ n :=
  Nat.dvd_trans (ulp_dvd_ulp le) grid

/-- The first magnitude of a binade, a multiple of its last place. -/
theorem ulp_dvd_binade (n : Nat) : ulp n ∣ 1 <<< n.log2 := by
  rw [ulp, Nat.one_shiftLeft, Nat.one_shiftLeft]
  exact Nat.pow_dvd_pow 2 (Nat.sub_le _ _)

/-- A magnitude is at least the first of its binade. -/
theorem binade_le {n : Nat} (pos : 0 < n) : 1 <<< n.log2 ≤ n := by
  rw [Nat.one_shiftLeft]
  exact Nat.log2_self_le (Nat.ne_of_gt pos)

/-- What is in a lower binade is below the first of a higher one. -/
theorem lt_binade {a b : Nat} (below : a.log2 < b.log2) :
    a < 1 <<< b.log2 := by
  rw [Nat.one_shiftLeft]
  exact Nat.lt_of_lt_of_le Nat.lt_log2_self
    (Nat.pow_le_pow_right (by decide) below)

/-- With 24 bits to keep, a last place is at most the `2^23`rd part. -/
theorem ulp_mul_le {n : Nat} (normal : 0x800000 ≤ n) :
    0x800000 * ulp n ≤ n := by
  have pos : 0 < n := Nat.lt_of_lt_of_le (by decide) normal
  have bits : 23 ≤ n.log2 :=
    (Nat.le_log2 (Nat.ne_of_gt pos)).mpr normal
  calc 0x800000 * ulp n
      = 1 <<< n.log2 := by
        rw [ulp, Nat.one_shiftLeft, Nat.one_shiftLeft,
          show 0x800000 = 2 ^ 23 by rfl, ← Nat.pow_add,
          Nat.add_sub_cancel' bits]
    _ ≤ n := binade_le pos

/-- Powers of two are positive. -/
theorem one_shiftLeft_pos (k : Nat) : 0 < 1 <<< k := by
  rw [Nat.one_shiftLeft]
  exact Nat.two_pow_pos k

/-- Below the binade `24` bits up, the last place divides the power. -/
theorem ulp_dvd_of_lt {n k : Nat} (lt : n < 0x1000000 <<< k) :
    ulp n ∣ 1 <<< k := by
  rw [ulp, Nat.one_shiftLeft, Nat.one_shiftLeft]
  refine Nat.pow_dvd_pow 2 ?_
  rcases Nat.eq_zero_or_pos n with zero | pos
  · rw [zero, Nat.log2_zero]
    exact Nat.zero_le _
  · have power : 0x1000000 <<< k = 2 ^ (24 + k) := by
      rw [Nat.shiftLeft_eq, Nat.pow_add]
    rw [power] at lt
    have bits := (Nat.log2_lt (Nat.ne_of_gt pos)).mpr lt
    omega

/-- So it is at most the power. -/
theorem ulp_le_of_lt {n k : Nat} (lt : n < 0x1000000 <<< k) :
    ulp n ≤ 1 <<< k :=
  Nat.le_of_dvd (one_shiftLeft_pos k) (ulp_dvd_of_lt lt)

/-- From the binade `23` bits up on, the power divides the last place. -/
theorem shiftLeft_dvd_ulp {n k : Nat} (le : 0x800000 <<< k ≤ n) :
    1 <<< k ∣ ulp n := by
  have power : 0x800000 <<< k = 2 ^ (23 + k) := by
    rw [Nat.shiftLeft_eq, Nat.pow_add]
  rw [power] at le
  have pos : 0 < n := Nat.lt_of_lt_of_le (Nat.two_pow_pos _) le
  have bits := (Nat.le_log2 (Nat.ne_of_gt pos)).mpr le
  rw [ulp, Nat.one_shiftLeft, Nat.one_shiftLeft]
  exact Nat.pow_dvd_pow 2 (by omega)

/-- Rounding ends on the grid. -/
theorem ulp_dvd_roundUnits (num den : Nat) :
    ulp (roundUnits num den) ∣ roundUnits num den := by
  have shifted : roundUnits num den
      = roundDiv num (den * ulp (num / den)) <<< ((num / den).log2 - 23) := by
    rw [roundUnits, Nat.shiftLeft_eq, ← Nat.one_shiftLeft]
    rfl
  rw [shifted]
  exact ulp_dvd_of_le _ (roundDiv_ulp_le num den)

/-! ## Rounding and the grid -/

variable {num den : Nat}

/-- Multiples of the last place below the quotient are not crossed. -/
theorem le_roundUnits_of_ulp_dvd {g : Nat} (pos : 0 < den)
    (dvd : ulp (num / den) ∣ g) (le : g * den ≤ num) :
    g ≤ roundUnits num den := by
  obtain ⟨k, rfl⟩ := dvd
  rw [roundUnits, Nat.mul_comm (ulp (num / den)) k]
  refine Nat.mul_le_mul_right _ ?_
  refine le_roundDiv (Nat.mul_pos pos (ulp_pos _)) ?_
  calc k * (den * ulp (num / den))
      = ulp (num / den) * k * den := by ac_rfl
    _ ≤ num := le

/-- Multiples of the last place above the quotient are not crossed. -/
theorem roundUnits_le_of_ulp_dvd {g : Nat} (pos : 0 < den)
    (dvd : ulp (num / den) ∣ g) (le : num ≤ g * den) :
    roundUnits num den ≤ g := by
  obtain ⟨k, rfl⟩ := dvd
  rw [roundUnits, Nat.mul_comm (ulp (num / den)) k]
  refine Nat.mul_le_mul_right _ ?_
  refine roundDiv_le (Nat.mul_pos pos (ulp_pos _)) ?_
  calc num ≤ ulp (num / den) * k * den := le
    _ = k * (den * ulp (num / den)) := by ac_rfl

/-- What is at least a magnitude of the grid is rounded to at least that. -/
theorem le_roundUnits {g : Nat} (pos : 0 < den) (grid : ulp g ∣ g)
    (le : g * den ≤ num) : g ≤ roundUnits num den := by
  have g_le : g ≤ num / den := (Nat.le_div_iff_mul_le pos).mpr le
  rcases Nat.lt_or_eq_of_le (log2_mono g_le) with lower | same
  · -- a lower binade: the first magnitude of the quotient's lies between
    have quotient_pos : 0 < num / den := by
      rcases Nat.eq_zero_or_pos (num / den) with zero | quotient_pos
      · rw [zero, Nat.log2_zero] at lower
        exact absurd lower (Nat.not_lt_zero _)
      · exact quotient_pos
    have first_le : 1 <<< (num / den).log2 * den ≤ num :=
      (Nat.le_div_iff_mul_le pos).mp (binade_le quotient_pos)
    exact Nat.le_trans (Nat.le_of_lt (lt_binade lower))
      (le_roundUnits_of_ulp_dvd pos (ulp_dvd_binade _) first_le)
  · have dvd : ulp (num / den) ∣ g := by
      rw [ulp, ← same]
      exact grid
    exact le_roundUnits_of_ulp_dvd pos dvd le

/-- What is at most a magnitude of the grid is rounded to at most that. -/
theorem roundUnits_le {g : Nat} (pos : 0 < den) (grid : ulp g ∣ g)
    (le : num ≤ g * den) : roundUnits num den ≤ g := by
  have quotient_le : num / den ≤ g := Nat.div_le_of_le_mul
    (Nat.mul_comm g den ▸ le)
  exact roundUnits_le_of_ulp_dvd pos (ulp_dvd_of_grid grid quotient_le) le

/-- The grid is kept. -/
theorem roundUnits_of_grid {g : Nat} (pos : 0 < den) (grid : ulp g ∣ g) :
    roundUnits (g * den) den = g :=
  Nat.le_antisymm (roundUnits_le pos grid (Nat.le_refl _))
    (le_roundUnits pos grid (Nat.le_refl _))

/-- The grid is kept, also when nothing is divided. -/
theorem roundUnits_one_of_grid {g : Nat} (grid : ulp g ∣ g) :
    roundUnits g 1 = g := by
  have kept := roundUnits_of_grid Nat.one_pos grid
  rw [Nat.mul_one] at kept
  exact kept

/-- Rounding is monotone. -/
theorem roundUnits_mono {a b : Nat} (pos : 0 < den) (le : a ≤ b) :
    roundUnits a den ≤ roundUnits b den := by
  have quotients : a / den ≤ b / den := Nat.div_le_div_right le
  rcases Nat.lt_or_eq_of_le (log2_mono quotients) with lower | same
  · -- between two binades lies the first magnitude of the higher one
    have quotient_pos : 0 < b / den := by
      rcases Nat.eq_zero_or_pos (b / den) with zero | quotient_pos
      · rw [zero, Nat.log2_zero] at lower
        exact absurd lower (Nat.not_lt_zero _)
      · exact quotient_pos
    have first_dvd : ulp (a / den) ∣ 1 <<< (b / den).log2 :=
      Nat.dvd_trans (ulp_dvd_ulp quotients) (ulp_dvd_binade _)
    have a_le : a ≤ 1 <<< (b / den).log2 * den := by
      have quotient_lt := lt_binade lower
      exact Nat.le_of_lt ((Nat.div_lt_iff_lt_mul pos).mp quotient_lt)
    have le_b : 1 <<< (b / den).log2 * den ≤ b :=
      (Nat.le_div_iff_mul_le pos).mp (binade_le quotient_pos)
    exact Nat.le_trans (roundUnits_le_of_ulp_dvd pos first_dvd a_le)
      (le_roundUnits_of_ulp_dvd pos (ulp_dvd_binade _) le_b)
  · have place : ulp (a / den) = ulp (b / den) := by
      rw [ulp, ulp, same]
    rw [roundUnits, roundUnits, place]
    exact Nat.mul_le_mul_right _ (roundDiv_mono _ le)

/-! ## The error of rounding -/

/-- The result is at most half a last place too large. -/
theorem roundUnits_mul_le (pos : 0 < den) :
    2 * (roundUnits num den * den) ≤ 2 * num + den * ulp (num / den) := by
  have half := @roundDiv_mul_le num _ (Nat.mul_pos pos (ulp_pos (num / den)))
  rw [roundUnits, Nat.mul_assoc, Nat.mul_comm (ulp (num / den)) den]
  exact half

/-- The result is at most half a last place too small. -/
theorem le_roundUnits_mul (pos : 0 < den) :
    2 * num ≤ 2 * (roundUnits num den * den) + den * ulp (num / den) := by
  have half := @le_roundDiv_mul num _ (Nat.mul_pos pos (ulp_pos (num / den)))
  rw [roundUnits, Nat.mul_assoc, Nat.mul_comm (ulp (num / den)) den]
  exact half

/-- The result is a multiple of the last place of what was rounded. -/
theorem ulp_dvd_roundUnits_of_quotient (num den : Nat) :
    ulp (num / den) ∣ roundUnits num den := Nat.dvd_mul_left _ _

/-- Rounding does not leave the binade downwards. -/
theorem ulp_dvd_ulp_roundUnits (pos : 0 < den) :
    ulp (num / den) ∣ ulp (roundUnits num den) := by
  rcases Nat.eq_zero_or_pos (num / den) with zero | quotient_pos
  · rw [zero]
    exact ulp_dvd_ulp (Nat.zero_le _)
  · have first_le : 1 <<< (num / den).log2 ≤ roundUnits num den :=
      le_roundUnits_of_ulp_dvd pos (ulp_dvd_binade _)
        ((Nat.le_div_iff_mul_le pos).mp (binade_le quotient_pos))
    have same : ulp (1 <<< (num / den).log2) = ulp (num / den) := by
      rw [ulp, ulp, Nat.one_shiftLeft (num / den).log2, Nat.log2_two_pow]
    rw [← same]
    exact ulp_dvd_ulp first_le

/-- Distinct multiples are at least the factor apart. -/
theorem add_le_of_dvd_of_lt {d m n : Nat} (hm : d ∣ m) (hn : d ∣ n)
    (lt : m < n) : m + d ≤ n := by
  have apart : d ≤ n - m :=
    Nat.le_of_dvd (Nat.sub_pos_of_lt lt) (Nat.dvd_sub hn hm)
  omega

/-- No magnitude of the grid below the result is nearer. -/
theorem add_roundUnits_le {g : Nat} (pos : 0 < den) (grid : ulp g ∣ g)
    (below : g < roundUnits num den) :
    (g + roundUnits num den) * den ≤ 2 * num := by
  have half := @roundUnits_mul_le num _ pos
  have place_dvd := ulp_dvd_roundUnits_of_quotient num den
  rcases Nat.lt_or_ge (roundUnits num den * den) (num + 1) with down | up
  · -- rounded down: both lie below the quotient
    have g_mul : g * den ≤ roundUnits num den * den :=
      Nat.mul_le_mul_right den (Nat.le_of_lt below)
    rw [Nat.add_mul]
    omega
  · -- rounded up: a whole last place lies between
    have g_le : g * den ≤ num := by
      rcases Nat.lt_or_ge num (g * den) with above | g_le
      · have crossed := roundUnits_le pos grid (Nat.le_of_lt above)
        omega
      · exact g_le
    have quotient : num / den < roundUnits num den := by
      rw [Nat.div_lt_iff_lt_mul pos]
      omega
    have apart : g + ulp (num / den) ≤ roundUnits num den := by
      rcases Nat.eq_zero_or_pos (num / den) with zero | quotient_pos
      · rw [zero]
        exact below
      · have g_quotient : g ≤ num / den := (Nat.le_div_iff_mul_le pos).mpr g_le
        rcases Nat.lt_or_eq_of_le (log2_mono g_quotient) with lower | same
        · have first_lt := add_le_of_dvd_of_lt (ulp_dvd_binade (num / den))
            place_dvd (Nat.lt_of_le_of_lt (binade_le quotient_pos) quotient)
          have g_lt := lt_binade lower
          omega
        · refine add_le_of_dvd_of_lt ?_ place_dvd below
          rw [ulp, ← same]
          exact grid
    have apart_mul := Nat.mul_le_mul_right den apart
    rw [Nat.add_mul, Nat.mul_comm (ulp (num / den))] at apart_mul
    rw [Nat.add_mul]
    omega

/-- To the magnitudes of the grid above the result it is a last place. -/
theorem roundUnits_add_ulp_le {g : Nat} (pos : 0 < den) (grid : ulp g ∣ g)
    (above : roundUnits num den < g) :
    roundUnits num den + ulp (num / den) ≤ g :=
  add_le_of_dvd_of_lt (ulp_dvd_roundUnits_of_quotient num den)
    (Nat.dvd_trans (ulp_dvd_ulp_roundUnits pos)
      (ulp_dvd_of_grid grid (Nat.le_of_lt above))) above

/-- No magnitude of the grid above the result is nearer. -/
theorem le_add_roundUnits {g : Nat} (pos : 0 < den) (grid : ulp g ∣ g)
    (above : roundUnits num den < g) :
    2 * num ≤ (g + roundUnits num den) * den := by
  have half := @le_roundUnits_mul num _ pos
  have apart_mul := Nat.mul_le_mul_right den
    (roundUnits_add_ulp_le pos grid above)
  rw [Nat.add_mul, Nat.mul_comm (ulp (num / den))] at apart_mul
  rw [Nat.add_mul]
  omega

/-- What is rounded to less than a magnitude of the grid lies half a last
    place below it. -/
theorem add_ulp_le_of_roundUnits_lt {g : Nat} (pos : 0 < den)
    (grid : ulp g ∣ g) (above : roundUnits num den < g) :
    2 * num + den * ulp (num / den) ≤ 2 * (g * den) := by
  have nearest := le_add_roundUnits pos grid above
  have apart_mul := Nat.mul_le_mul_right den
    (roundUnits_add_ulp_le pos grid above)
  rw [Nat.add_mul, Nat.mul_comm (ulp (num / den))] at apart_mul
  rw [Nat.add_mul] at nearest
  omega

/-- Division does not reach a magnitude of the grid that is not subnormal,
    unless it is exceeded: if a product with the divisor is on the grid, a
    dividend below it has a quotient that is rounded below the factor. -/
theorem roundUnits_lt {g : Nat} (pos : 0 < den) (grid : ulp num ∣ num)
    (product : ulp (g * den) ∣ g * den) (normal : 0x800000 < g)
    (lt : num < g * den) : roundUnits num den < g := by
  rcases Nat.lt_or_ge (roundUnits num den) g with below | reached
  · exact below
  · -- the dividend is a last place off, and dividing narrows that too little
    exfalso
    have quotient_normal : 0x800000 ≤ num / den := by
      rcases Nat.lt_or_ge (num / den) 0x800000 with subnormal | normal
      · have num_le : num ≤ 0x800000 * den :=
          Nat.le_of_lt ((Nat.div_lt_iff_lt_mul pos).mp subnormal)
        have small := roundUnits_le pos
          (show ulp 0x800000 ∣ 0x800000 by decide) num_le
        omega
      · exact normal
    have half := @roundUnits_mul_le num _ pos
    have apart := add_le_of_dvd_of_lt grid
      (ulp_dvd_of_grid product (Nat.le_of_lt lt)) lt
    have reached_mul := Nat.mul_le_mul_right den reached
    have quotient_place : 0x800000 * (den * ulp (num / den)) ≤ num := by
      calc 0x800000 * (den * ulp (num / den))
          = 0x800000 * ulp (num / den) * den := by ac_rfl
        _ ≤ num / den * den :=
          Nat.mul_le_mul_right den (ulp_mul_le quotient_normal)
        _ ≤ num := Nat.div_mul_le_self num den
    have place : num < 0x1000000 * ulp num :=
      (Nat.div_lt_iff_lt_mul (ulp_pos num)).mp (div_ulp_lt num)
    omega

/-- What lies within half a last place of a magnitude of the grid is rounded
    to it, if that magnitude is not the first of its binade. -/
theorem roundUnits_of_near {g : Nat} (grid : ulp g ∣ g)
    (inner : 1 <<< g.log2 < g) (not_below : 2 * g < 2 * num + ulp g)
    (not_above : 2 * num < 2 * g + ulp g) : roundUnits num 1 = g := by
  rcases Nat.lt_trichotomy (roundUnits num 1) g with below | same | above
  · -- the next magnitude below is still in the binade, a last place off
    have nearest := le_add_roundUnits Nat.one_pos grid below
    have first_le := add_le_of_dvd_of_lt (ulp_dvd_binade g) grid inner
    have apart : roundUnits num 1 + ulp g ≤ g := by
      rcases Nat.lt_or_ge (roundUnits num 1) (1 <<< g.log2) with lower | same
      · omega
      · have dvd : ulp g ∣ roundUnits num 1 := by
          have binade : ulp (1 <<< g.log2) = ulp g := by
            rw [ulp, ulp, Nat.one_shiftLeft g.log2, Nat.log2_two_pow]
          rw [← binade]
          exact ulp_dvd_of_grid (ulp_dvd_roundUnits num 1) same
        exact add_le_of_dvd_of_lt dvd grid below
    omega
  · exact same
  · have nearest := add_roundUnits_le Nat.one_pos grid above
    have apart := add_le_of_dvd_of_lt grid
      (ulp_dvd_of_grid (ulp_dvd_roundUnits num 1) (Nat.le_of_lt above)) above
    omega

/-! ## Common factors and powers of two -/

/-- A factor can be multiplied before shifting. -/
theorem shiftLeft_mul (n k c : Nat) : n <<< k * c = (n * c) <<< k := by
  rw [Nat.shiftLeft_eq, Nat.shiftLeft_eq, Nat.mul_right_comm]

/-- A common factor cancels. -/
theorem roundUnits_mul_mul (num den : Nat) {c : Nat} (pos : 0 < c) :
    roundUnits (num * c) (den * c) = roundUnits num den := by
  rw [roundUnits, roundUnits, Nat.mul_div_mul_right _ _ pos,
    Nat.mul_right_comm, roundDiv_mul_mul _ _ pos]

/-- Doubling moves up one binade. -/
theorem log2_shiftLeft {n : Nat} (pos : 0 < n) (k : Nat) :
    (n <<< k).log2 = n.log2 + k := by
  have n_ne : n ≠ 0 := Nat.ne_of_gt pos
  rw [Nat.shiftLeft_eq]
  have shifted_ne : n * 2 ^ k ≠ 0 :=
    Nat.mul_ne_zero n_ne (Nat.ne_of_gt (Nat.two_pow_pos k))
  refine (Nat.log2_eq_iff shifted_ne).mpr ⟨?_, ?_⟩
  · rw [Nat.pow_add]
    exact Nat.mul_le_mul_right _ (Nat.log2_self_le n_ne)
  · rw [show n.log2 + k + 1 = n.log2 + 1 + k by omega, Nat.pow_add]
    exact Nat.mul_lt_mul_of_pos_right Nat.lt_log2_self (Nat.two_pow_pos k)

/-- With 24 bits to keep, the last place doubles with the magnitude. -/
theorem ulp_shiftLeft {n : Nat} (normal : 0x800000 ≤ n) (k : Nat) :
    ulp (n <<< k) = ulp n <<< k := by
  have pos : 0 < n := Nat.lt_of_lt_of_le (by decide) normal
  have bits : 23 ≤ n.log2 :=
    (Nat.le_log2 (Nat.ne_of_gt pos)).mpr normal
  rw [ulp, ulp, log2_shiftLeft pos, ← Nat.shiftLeft_add,
    show n.log2 + k - 23 = n.log2 - 23 + k by omega]

/-- A last place at most doubles with the magnitude. -/
theorem ulp_shiftLeft_le (n k : Nat) : ulp (n <<< k) ≤ ulp n <<< k := by
  rcases Nat.lt_or_ge n 0x800000 with small | normal
  · have place : ulp (n <<< k) ≤ 1 <<< k := by
      refine ulp_le_of_lt ?_
      rw [Nat.shiftLeft_eq, Nat.shiftLeft_eq]
      exact Nat.mul_lt_mul_of_pos_right (by omega) (Nat.two_pow_pos k)
    rw [Nat.one_shiftLeft] at place
    rw [Nat.shiftLeft_eq (ulp n)]
    exact Nat.le_trans place (Nat.le_mul_of_pos_left _ (ulp_pos n))
  · exact Nat.le_of_eq (ulp_shiftLeft normal k)

/-- Doubling does not leave the grid. -/
theorem grid_shiftLeft {n : Nat} (grid : ulp n ∣ n) (k : Nat) :
    ulp (n <<< k) ∣ n <<< k := by
  rcases Nat.lt_or_ge n 0x800000 with small | normal
  · exact ulp_dvd_of_le k (by omega)
  · rw [ulp_shiftLeft normal, Nat.shiftLeft_eq, Nat.shiftLeft_eq]
    exact Nat.mul_dvd_mul_right grid _

/-- With 24 bits to keep, rounding commutes with powers of two. -/
theorem roundUnits_shiftLeft {n : Nat} (normal : 0x800000 ≤ n) (k : Nat) :
    roundUnits (n <<< k) 1 = roundUnits n 1 <<< k := by
  have scale_pos : 0 < 2 ^ k := Nat.two_pow_pos k
  rw [roundUnits, roundUnits, Nat.div_one, Nat.div_one,
    ulp_shiftLeft normal k]
  simp only [Nat.shiftLeft_eq, Nat.one_mul]
  rw [roundDiv_mul_mul _ _ scale_pos, Nat.mul_assoc]

/-- Zero is kept. -/
theorem roundUnits_zero (den : Nat) : roundUnits 0 den = 0 := by
  rcases Nat.eq_zero_or_pos den with zero | pos
  · rw [zero]
    rfl
  · have kept := roundUnits_of_grid pos (g := 0) (Nat.dvd_zero _)
    rw [Nat.zero_mul] at kept
    exact kept

end Binary32

end Fieldbus
