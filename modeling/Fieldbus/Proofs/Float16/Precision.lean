import Fieldbus.Proofs.Float16.Reconstruction

/-! # How exactly hundredths are sized

    The rounded hundredth is a little too small, by 24 parts of `2^-30`,
    and rounding its multiples adds at most half a last place.  From these
    two errors alone:

    * counts with mantissas of twelve bits stay strictly ordered;
    * a hundredfold of the size never exceeds the count it came from, and
      falls short of it by less than half a step of the mantissa. -/

namespace Fieldbus

open Binary32

namespace Float16

/-! ## Last places of sizes -/

/-- A count lies in the binade of its leading bit. -/
theorem binade_mem {n : Nat} (pos : 0 < n) :
    1 <<< n.log2 ≤ n ∧ n < 2 * 1 <<< n.log2 := by
  refine ⟨binade_le pos, ?_⟩
  have above := @Nat.lt_log2_self n
  rw [Nat.pow_succ, ← Nat.one_shiftLeft] at above
  omega

/-- A literal can be shifted first, and the power multiplied on. -/
theorem shiftLeft_add_eq (a j k : Nat) :
    a <<< (j + k) = a <<< k * 1 <<< j := by
  rw [Nat.add_comm, Nat.shiftLeft_add, Nat.shiftLeft_eq _ j,
    Nat.one_shiftLeft]

/-- A power of two in a count is found in the last place of its size. -/
theorem dvd_ulp_size {n k : Nat} (le : 1 <<< k ≤ n) :
    1 <<< k <<< 119 ∣ ulp (unitMagnitude.units * n) := by
  rw [← Nat.shiftLeft_add]
  refine shiftLeft_dvd_ulp ?_
  rw [shiftLeft_add_eq]
  exact Nat.mul_le_mul (by decide) le

/-- The last place of a size is found in the power of two that bounds its
    24 bits. -/
theorem ulp_size_dvd {n k : Nat} (lt : 10737418 * n < 0x1000000 * 1 <<< k) :
    ulp (unitMagnitude.units * n) ∣ 1 <<< k <<< 119 := by
  have size : unitMagnitude.units * n = 10737418 <<< 119 * n := rfl
  rw [← Nat.shiftLeft_add]
  refine ulp_dvd_of_lt ?_
  rw [shiftLeft_add_eq, size]
  omega

/-- The last place of a size is at most twice that of the count's binade,
    and only once that below `1.5625` times the first of the binade. -/
theorem ulp_size_le {n : Nat} (pos : 0 < n) :
    ulp (unitMagnitude.units * n) ≤ 2 * 1 <<< n.log2 <<< 119
      ∧ (10737418 * n < 0x1000000 * 1 <<< n.log2 →
        ulp (unitMagnitude.units * n) ≤ 1 <<< n.log2 <<< 119) := by
  have lt := (binade_mem pos).2
  have power_pos := one_shiftLeft_pos n.log2
  have double : 1 <<< (n.log2 + 1) = 2 * 1 <<< n.log2 := by
    rw [Nat.shiftLeft_succ]
  constructor
  · have dvd : ulp (unitMagnitude.units * n) ∣ 1 <<< (n.log2 + 1) <<< 119 :=
      ulp_size_dvd (by omega)
    have le := Nat.le_of_dvd (by omega) dvd
    omega
  · intro low
    exact Nat.le_of_dvd (by omega) (ulp_size_dvd low)

/-- Rounding a size does not make its last place smaller. -/
theorem ulp_dvd_ulp_hundredthUnits (n : Nat) :
    ulp (unitMagnitude.units * n) ∣ ulp (hundredthUnits n) := by
  have dvd := @ulp_dvd_ulp_roundUnits (unitMagnitude.units * n) 1 Nat.one_pos
  rw [Nat.div_one] at dvd
  exact dvd

/-- A size is a multiple of the exact multiple's last place. -/
theorem ulp_dvd_hundredthUnits (n : Nat) :
    ulp (unitMagnitude.units * n) ∣ hundredthUnits n :=
  Nat.dvd_trans (ulp_dvd_ulp_hundredthUnits n) (ulp_dvd_roundUnits _ 1)

/-- The size of a count misses the exact multiple by at most half a last
    place. -/
theorem hundredthUnits_near (n : Nat) :
    2 * hundredthUnits n
        ≤ 2 * (unitMagnitude.units * n) + ulp (unitMagnitude.units * n)
      ∧ 2 * (unitMagnitude.units * n)
        ≤ 2 * hundredthUnits n + ulp (unitMagnitude.units * n) := by
  have above := @roundUnits_mul_le (unitMagnitude.units * n) 1 Nat.one_pos
  have below := @le_roundUnits_mul (unitMagnitude.units * n) 1 Nat.one_pos
  rw [Nat.div_one, Nat.one_mul, Nat.mul_one] at above below
  exact ⟨above, below⟩

/-! ## Strict order -/

/-- A shifted number is a multiple of every lesser power of two. -/
theorem one_shiftLeft_dvd (n : Nat) {j k : Nat} (le : j ≤ k) :
    1 <<< j ∣ n <<< k := by
  rw [Nat.one_shiftLeft, Nat.shiftLeft_eq]
  exact Nat.dvd_trans (Nat.pow_dvd_pow 2 le) (Nat.dvd_mul_left _ _)

/-- Counts with mantissas of twelve bits are well apart. -/
theorem count_gap {m n j k : Nat} (small_m : m ≤ 2048) (small_n : n ≤ 2048)
    (lt : m <<< j < n <<< k) :
    n <<< k + 4096 * m <<< j ≤ 4096 * n <<< k := by
  rcases Nat.le_total j k with le | le
  · -- both are multiples of the lesser power
    obtain ⟨d, rfl⟩ := Nat.exists_eq_add_of_le le
    have apart : m <<< j + 1 <<< j ≤ n <<< (j + d) :=
      add_le_of_dvd_of_lt (one_shiftLeft_dvd m (Nat.le_refl j))
        (one_shiftLeft_dvd n le) lt
    have bound : m <<< j ≤ 2048 * 1 <<< j := by
      rw [Nat.shiftLeft_eq, Nat.one_shiftLeft]
      exact Nat.mul_le_mul_right _ small_m
    omega
  · obtain ⟨d, rfl⟩ := Nat.exists_eq_add_of_le le
    have apart : m <<< (k + d) + 1 <<< k ≤ n <<< k :=
      add_le_of_dvd_of_lt (one_shiftLeft_dvd m le)
        (one_shiftLeft_dvd n (Nat.le_refl k)) lt
    have bound : n <<< k ≤ 2048 * 1 <<< k := by
      rw [Nat.shiftLeft_eq, Nat.one_shiftLeft]
      exact Nat.mul_le_mul_right _ small_n
    omega

/-- Rounding does not merge counts with mantissas of twelve bits. -/
theorem hundredthUnits_strictMono {m n j k : Nat} (small_m : m ≤ 2048)
    (small_n : n ≤ 2048) (lt : m <<< j < n <<< k) :
    hundredthUnits (m <<< j) < hundredthUnits (n <<< k) := by
  have gap := count_gap small_m small_n lt
  have pos : 0 < n <<< k := Nat.lt_of_le_of_lt (Nat.zero_le _) lt
  have near_m := (hundredthUnits_near (m <<< j)).1
  have near_n := (hundredthUnits_near (n <<< k)).2
  have places : ulp (unitMagnitude.units * m <<< j)
      ≤ ulp (unitMagnitude.units * n <<< k) :=
    ulp_mono (Nat.mul_le_mul_left _ (Nat.le_of_lt lt))
  have normal := normal_unit_mul pos
  have small_place := ulp_mul_le normal
  have sizes : unitMagnitude.units * n <<< k
      + 4096 * (unitMagnitude.units * m <<< j)
      ≤ 4096 * (unitMagnitude.units * n <<< k) := by
    have := Nat.mul_le_mul_left unitMagnitude.units gap
    rw [Nat.mul_add, Nat.mul_left_comm _ 4096, Nat.mul_left_comm _ 4096] at this
    exact this
  omega

/-! ## The way back -/

/-- The least steps in a hundredfold of a size, rounded. -/
def hundredfold (n : Nat) : Nat := roundUnits (hundredthUnits n * 100) 1

/-- A hundredfold of nothing is nothing. -/
theorem hundredfold_zero : hundredfold 0 = 0 := by
  rw [hundredfold, hundredthUnits_zero, Nat.zero_mul, roundUnits_zero]

/-- A hundredfold doubles with the hundredths. -/
theorem hundredfold_shiftLeft (n k : Nat) :
    hundredfold (n <<< k) = hundredfold n <<< k := by
  rcases Nat.eq_zero_or_pos n with rfl | pos
  · rw [Nat.zero_shiftLeft, hundredfold_zero, Nat.zero_shiftLeft]
  · have unit_le : hundredthUnits 1 ≤ hundredthUnits n :=
      hundredthUnits_mono pos
    have normal : 0x800000 ≤ hundredthUnits n * 100 := by
      have least : 0x800000 ≤ hundredthUnits 1 := by decide +kernel
      omega
    rw [hundredfold, hundredfold, hundredthUnits_shiftLeft, shiftLeft_mul,
      roundUnits_shiftLeft normal]

/-- A hundredfold of a size never exceeds the count: the unit is too small
    for its rounding to make up for. -/
theorem hundredfold_le {n : Nat} (grid : ulp n ∣ n) :
    hundredfold n ≤ n <<< 149 := by
  rcases Nat.eq_zero_or_pos n with rfl | pos
  · rw [hundredfold_zero]
    exact Nat.zero_le _
  · rcases Nat.lt_or_ge (n <<< 149) (hundredfold n) with above | le
    · -- then it is a last place too large, which no error accounts for
      exfalso
      have grid' := grid_shiftLeft grid 149
      have nearest := add_roundUnits_le Nat.one_pos grid' above
      have apart := add_le_of_dvd_of_lt grid'
        (ulp_dvd_of_grid (ulp_dvd_roundUnits _ 1) (Nat.le_of_lt above)) above
      have place : ulp (n <<< 149) = 128 * 1 <<< n.log2 <<< 119 := by
        rw [ulp, log2_shiftLeft pos,
          show n.log2 + 149 - 23 = 7 + (n.log2 + 119) by omega,
          ← Nat.shiftLeft_add, Nat.one_shiftLeft, Nat.one_shiftLeft,
          Nat.pow_add]
      have near := (hundredthUnits_near n).1
      have size : unitMagnitude.units * n = 10737418 <<< 119 * n := rfl
      have places := ulp_size_le pos
      have binade := binade_mem pos
      omega
    · exact le

/-- Half a step of the mantissa is more than a hundredfold falls short
    of. -/
theorem le_hundredfold {n : Nat} (small : n ≤ 2048) :
    2 * n <<< 149 ≤ 2 * hundredfold n + 1 <<< 149 := by
  rcases Nat.eq_zero_or_pos n with rfl | pos
  · rw [Nat.zero_shiftLeft]
    exact Nat.zero_le _
  · -- the half step below is on the grid, so it is not crossed
    have grid := @ulp_dvd_of_le (2 * n - 1) 148 (by omega)
    have reached : (2 * n - 1) <<< 148 * 1 ≤ hundredthUnits n * 100 := by
      have near := (hundredthUnits_near n).2
      have size : unitMagnitude.units * n = 10737418 <<< 119 * n := rfl
      have place := (ulp_size_le pos).1
      have binade := (binade_mem pos).1
      omega
    have not_crossed : (2 * n - 1) <<< 148 ≤ hundredfold n :=
      le_roundUnits Nat.one_pos grid reached
    omega

/-- The exponent scales the half step as well. -/
theorem le_hundredfold_shiftLeft {n : Nat} (small : n ≤ 2048) (k : Nat) :
    2 * n <<< k <<< 149 ≤ 2 * hundredfold (n <<< k) + 1 <<< k <<< 149 := by
  have scaled := Nat.mul_le_mul_right (1 <<< k) (le_hundredfold small)
  rw [Nat.add_mul] at scaled
  rw [hundredfold_shiftLeft]
  simp only [Nat.shiftLeft_eq, Nat.one_mul] at scaled ⊢
  calc 2 * (n * 2 ^ k * 2 ^ 149)
      = 2 * (n * 2 ^ 149) * 2 ^ k := by ac_rfl
    _ ≤ 2 * hundredfold n * 2 ^ k + 2 ^ 149 * 2 ^ k := scaled
    _ = 2 * (hundredfold n * 2 ^ k) + 2 ^ k * 2 ^ 149 := by ac_rfl

end Float16

end Fieldbus
