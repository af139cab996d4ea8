import Fieldbus.Proofs.Binary32.Nearest
import Fieldbus.Proofs.Binary32.Order

/-! # Scaling binary32 numbers by a positive ratio

    A product with a positive number and a quotient by one are the same
    thing: the size times a ratio of whole numbers, rounded once, under the
    same sign.  So both respect the order, whatever overflows or vanishes
    on the way.  Whole numbers of up to 24 bits are exact, and scaling by
    powers of two is. -/

namespace Fieldbus

namespace Binary32

variable {x y : Binary32} {num den : Nat}

/-- The size times a ratio, rounded, under the same sign. -/
def scale (num den : Nat) : Binary32 → Binary32
  | .nan => .nan
  | .infinity negative => .infinity negative
  | .finite negative magnitude =>
      ofUnitRatio negative (magnitude.units * num) den

/-- Multiplying by a positive number scales. -/
theorem mul_finite {c : Magnitude} (pos : 0 < c.units) (x : Binary32) :
    x * .finite false c = x.scale c.units oneUnits := by
  have c_ne : c.units ≠ 0 := Nat.ne_of_gt pos
  cases x with
  | nan => rfl
  | infinity s =>
      show (if c.units = 0 then nan else infinity (s != false)) = infinity s
      rw [if_neg c_ne, Bool.bne_false]
  | finite s m =>
      show ofUnitRatio (s != false) (m.units * c.units) oneUnits
        = ofUnitRatio s (m.units * c.units) oneUnits
      rw [Bool.bne_false]

/-- Dividing by a positive number scales. -/
theorem div_finite {c : Magnitude} (pos : 0 < c.units) (x : Binary32) :
    x / .finite false c = x.scale oneUnits c.units := by
  have c_ne : c.units ≠ 0 := Nat.ne_of_gt pos
  cases x with
  | nan => rfl
  | infinity s =>
      show infinity (s != false) = infinity s
      rw [Bool.bne_false]
  | finite s m =>
      show (if c.units = 0 then
          if m.units = 0 then nan else infinity (s != false)
        else ofUnitRatio (s != false) (m.units * oneUnits) c.units)
        = ofUnitRatio s (m.units * oneUnits) c.units
      rw [if_neg c_ne, Bool.bne_false]

/-! ## Scaling and the order -/

/-- The place of a rounded ratio. -/
theorem position?_ofUnitRatio (s : Bool) (num den : Nat) :
    (ofUnitRatio s num den).position?
      = some (signed s (min (roundUnits num den) limitUnits)) := by
  unfold ofUnitRatio
  split
  · next bounded =>
      show some (signed s (roundUnits num den)) = _
      rw [Nat.min_eq_left (Nat.le_of_lt bounded)]
  · next reached =>
      show some (signed s limitUnits) = _
      rw [Nat.min_eq_right (Nat.le_of_not_lt reached)]

/-- Scaled numbers have places. -/
theorem position_scale (num den : Nat) {a : Int}
    (hx : x.position? = some a) :
    ∃ b, (x.scale num den).position? = some b := by
  cases x with
  | nan => exact nomatch hx
  | infinity s => exact ⟨_, rfl⟩
  | finite s m => exact ⟨_, position?_ofUnitRatio s _ _⟩

/-- Every number lies below the greatest infinity. -/
theorem le_top {a : Int} (hx : x.position? = some a) :
    x ≤ infinity false :=
  (le_iff_of_position hx rfl).mpr (position_mem hx).2

/-- Every number lies above the least infinity. -/
theorem bottom_le {a : Int} (hx : x.position? = some a) :
    infinity true ≤ x :=
  (le_iff_of_position rfl hx).mpr (position_mem hx).1

/-- Scaling respects the order. -/
theorem scale_mono (pos : 0 < den) (le : x ≤ y) :
    x.scale num den ≤ y.scale num den := by
  obtain ⟨a, b, hx, hy, -⟩ := position_of_le le
  rcases le_cases le with bottom | top | ⟨s, m, t, n, rfl, rfl, places⟩
  · obtain ⟨b', hy'⟩ := position_scale num den hy
    rw [bottom]
    exact bottom_le hy'
  · obtain ⟨a', hx'⟩ := position_scale num den hx
    rw [top]
    exact le_top hx'
  · refine (le_iff_of_position (position?_ofUnitRatio s _ _)
      (position?_ofUnitRatio t _ _)).mpr ?_
    refine signed_le_signed
      (f := fun size => min (roundUnits (size * num) den) limitUnits) ?_ ?_ places
    · show min (roundUnits (0 * num) den) limitUnits = 0
      rw [Nat.zero_mul, roundUnits_zero, Nat.zero_min]
    · intro m n le
      have products : m * num ≤ n * num := Nat.mul_le_mul_right num le
      have rounded := roundUnits_mono pos products
      show min (roundUnits (m * num) den) limitUnits
        ≤ min (roundUnits (n * num) den) limitUnits
      omega

/-! ## Exact results -/

/-- Equal roundings are equal numbers. -/
theorem ofUnitRatio_congr {s : Bool} {a b c d : Nat}
    (same : roundUnits a b = roundUnits c d) :
    ofUnitRatio s a b = ofUnitRatio s c d := by
  by_cases bounded : roundUnits a b < limitUnits
  · rw [ofUnitRatio, ofUnitRatio, dif_pos bounded, dif_pos (same ▸ bounded)]
    congr 2
  · rw [ofUnitRatio, ofUnitRatio, dif_neg bounded, dif_neg (same ▸ bounded)]

/-- The magnitude of a whole number of up to 24 bits. -/
def Magnitude.whole (n : Nat) (small : n ≤ 0x1000000) : Magnitude where
  units := n <<< 149
  representable := representable_of_le 149 small (by
    show n <<< 149 < 1 <<< 149 <<< 128
    omega)

/-- Whole numbers that are positive have positive magnitudes. -/
theorem Magnitude.whole_pos {n : Nat} (pos : 0 < n)
    (small : n ≤ 0x1000000) : 0 < (Magnitude.whole n small).units := by
  show 0 < n <<< 149
  omega

/-- A ratio that rounds to a magnitude is the number of that magnitude. -/
theorem ofUnitRatio_eq_finite {s : Bool} {magnitude : Magnitude}
    (rounded : roundUnits num den = magnitude.units) :
    ofUnitRatio s num den = .finite s magnitude := by
  have bounded : roundUnits num den < limitUnits := by
    rw [rounded]
    exact magnitude.representable.1
  rw [ofUnitRatio, dif_pos bounded]
  congr 2

/-- Whole numbers of up to 24 bits are exact. -/
theorem ofRatio_whole (s : Bool) {n : Nat} (small : n ≤ 0x1000000) :
    ofRatio s n 1 = .finite s (.whole n small) := by
  refine ofUnitRatio_eq_finite ?_
  show roundUnits (n * 1 <<< 149) 1 = n <<< 149
  rw [Nat.one_shiftLeft, ← Nat.shiftLeft_eq]
  exact roundUnits_one_of_grid (ulp_dvd_of_le 149 small)

/-- Multiplying a size by a whole number rounds the plain product. -/
theorem roundUnits_whole (units n : Nat) :
    roundUnits (units * n <<< 149) oneUnits = roundUnits (units * n) 1 := by
  have product : units * n <<< 149 = units * n * oneUnits := by
    show units * n <<< 149 = units * n * 1 <<< 149
    rw [Nat.one_shiftLeft, Nat.shiftLeft_eq, Nat.mul_assoc]
  have cancelled := roundUnits_mul_mul (units * n) 1
    (show 0 < oneUnits by decide)
  rw [Nat.one_mul] at cancelled
  rw [product, cancelled]

/-- Scaling by a whole number rounds the plain product. -/
theorem scale_whole (s : Bool) (m : Magnitude) (n : Nat) :
    scale (n <<< 149) oneUnits (.finite s m) = ofUnitRatio s (m.units * n) 1 :=
  ofUnitRatio_congr (roundUnits_whole m.units n)

/-- Dividing a size by a whole number rounds the plain quotient. -/
theorem roundUnits_div_whole (units n : Nat) :
    roundUnits (units * oneUnits) (n <<< 149) = roundUnits units n := by
  have divisor : n <<< 149 = n * oneUnits := by
    show n <<< 149 = n * 1 <<< 149
    rw [Nat.one_shiftLeft, Nat.shiftLeft_eq]
  rw [divisor]
  exact roundUnits_mul_mul units n (show 0 < oneUnits by decide)

/-- Scaling by the inverse of a whole number rounds the plain quotient. -/
theorem scale_div_whole (s : Bool) (m : Magnitude) (n : Nat) :
    scale oneUnits (n <<< 149) (.finite s m) = ofUnitRatio s m.units n :=
  ofUnitRatio_congr (roundUnits_div_whole m.units n)

/-- Where truncation does not saturate, it is the whole part of the rounded
    ratio. -/
theorem truncate_ofUnitRatio {s : Bool} {least most : Int}
    (above : least < (ofUnitRatio s num den).truncate least most)
    (below : (ofUnitRatio s num den).truncate least most < most) :
    (ofUnitRatio s num den).truncate least most
      = signed s (roundUnits num den / oneUnits) := by
  by_cases bounded : roundUnits num den < limitUnits
  · have held : (ofUnitRatio s num den).truncate least most
        = max least (min most (signed s (roundUnits num den / oneUnits))) := by
      rw [ofUnitRatio, dif_pos bounded]
      rfl
    rw [held] at above below ⊢
    omega
  · rw [ofUnitRatio, dif_neg bounded] at above below
    cases s with
    | false => exact absurd below (Int.lt_irrefl most)
    | true => exact absurd above (Int.lt_irrefl least)

/-- Natural numbers of up to 24 bits are exact. -/
theorem ofNat_eq {n : Nat} (small : n ≤ 0x1000000) :
    Binary32.ofNat n = .finite false (.whole n small) :=
  ofRatio_whole false small

/-- Multiplying by a positive natural number scales. -/
theorem mul_ofNat {n : Nat} (pos : 0 < n) (small : n ≤ 0x1000000)
    (x : Binary32) :
    x * Binary32.ofNat n = x.scale (n <<< 149) oneUnits := by
  rw [ofNat_eq small]
  exact mul_finite (Magnitude.whole_pos pos small) x

/-- Dividing by a positive natural number scales. -/
theorem div_ofNat {n : Nat} (pos : 0 < n) (small : n ≤ 0x1000000)
    (x : Binary32) :
    x / Binary32.ofNat n = x.scale oneUnits (n <<< 149) := by
  rw [ofNat_eq small]
  exact div_finite (Magnitude.whole_pos pos small) x

/-- Products of whole numbers of up to 24 bits are exact. -/
theorem whole_mul_whole (s : Bool) {m n : Nat} (pos : 0 < n)
    (small_m : m ≤ 0x1000000) (small_n : n ≤ 0x1000000)
    (small : m * n ≤ 0x1000000) :
    Binary32.finite s (.whole m small_m) * .finite false (.whole n small_n)
      = .finite s (.whole (m * n) small) := by
  rw [mul_finite (Magnitude.whole_pos pos small_n)]
  refine (scale_whole s (.whole m small_m) n).trans ?_
  refine ofUnitRatio_eq_finite ?_
  show roundUnits (m <<< 149 * n) 1 = (m * n) <<< 149
  rw [shiftLeft_mul]
  exact roundUnits_one_of_grid (ulp_dvd_of_le 149 small)

/-! ## Whole parts -/

/-- A whole number is the whole part of its own least steps. -/
theorem whole_div_oneUnits (n : Nat) : n <<< 149 / oneUnits = n := by
  rw [oneUnits, Nat.shiftLeft_eq n, Nat.one_shiftLeft]
  exact Nat.mul_div_cancel n (Nat.two_pow_pos 149)

/-- The whole part reaches what the least steps reach. -/
theorem le_div_oneUnits_iff {n units : Nat} :
    n ≤ units / oneUnits ↔ n <<< 149 ≤ units := by
  rw [oneUnits, Nat.shiftLeft_eq n, Nat.one_shiftLeft]
  exact Nat.le_div_iff_mul_le (Nat.two_pow_pos 149)

/-- The whole part stays below what the least steps stay below. -/
theorem div_oneUnits_lt_iff {n units : Nat} :
    units / oneUnits < n ↔ units < n <<< 149 := by
  rw [oneUnits, Nat.shiftLeft_eq n, Nat.one_shiftLeft]
  exact Nat.div_lt_iff_lt_mul (Nat.two_pow_pos 149)

end Binary32

end Fieldbus
