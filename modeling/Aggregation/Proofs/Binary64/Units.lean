import Mathlib
import Aggregation.Binary64.Basic

set_option autoImplicit false

namespace Aggregation.Binary64

theorem binade_pos : 0 < binade := by decide

theorem units_in_one_pos : 0 < unitsInOne := by decide

theorem units_split (lap place : Nat) (inside : place < binade) :
    units (binade * lap + place) = if lap = 0 then place else (binade + place) * 2 ^ (lap - 1) := by
  rw [units, Nat.mul_add_div binade_pos, Nat.mul_add_mod, Nat.div_eq_of_lt inside,
    Nat.mod_eq_of_lt inside, Nat.add_zero, Nat.shiftLeft_eq]
  split
  · simp_all
  · rfl

theorem units_succ (index : Nat) : units (index + 1) = units index + 2 ^ (index / binade - 1) := by
  obtain ⟨lap, place, inside, rfl⟩ : ∃ lap place, place < binade ∧ index = binade * lap + place :=
    ⟨index / binade, index % binade, Nat.mod_lt _ binade_pos, (Nat.div_add_mod _ _).symm⟩
  rw [Nat.mul_add_div binade_pos, Nat.div_eq_of_lt inside, Nat.add_zero, units_split lap place inside]
  by_cases last : place + 1 = binade
  · rw [Nat.add_assoc, last, ← Nat.mul_succ, ← Nat.add_zero (binade * lap.succ),
      units_split _ _ binade_pos, if_neg (Nat.succ_ne_zero lap)]
    cases lap with
    | zero => simp [← last]
    | succ lap =>
        simp only [Nat.succ_ne_zero, if_false, Nat.succ_eq_add_one, Nat.add_sub_cancel, Nat.add_zero]
        calc binade * 2 ^ (lap + 1) = (binade + binade) * 2 ^ lap := by ring
          _ = (binade + place + 1) * 2 ^ lap := by rw [Nat.add_assoc, last]
          _ = (binade + place) * 2 ^ lap + 2 ^ lap := by ring
  · rw [Nat.add_assoc, units_split lap (place + 1) (by omega)]
    by_cases first : lap = 0
    · simp [first]
    · rw [if_neg first, if_neg first, ← Nat.add_assoc, Nat.add_mul, Nat.one_mul, Nat.add_zero]

theorem units_strict_mono : StrictMono units :=
  strictMono_nat_of_lt_succ fun index => by
    rw [units_succ]
    exact Nat.lt_add_of_pos_right (Nat.two_pow_pos _)

theorem units_zero : units 0 = 0 := by decide

theorem units_one : units 1 = 1 := by decide

-- While the significand is below the binade, the exponent is lowered and the significand doubled.
theorem units_of_scaled (exponent significand : Nat) (bound : significand < 2 * binade) :
    ∃ index, units index = significand * 2 ^ exponent := by
  induction exponent generalizing significand with
  | zero =>
      by_cases large : binade ≤ significand
      · refine ⟨binade * 1 + (significand - binade), ?_⟩
        rw [units_split _ _ (by omega), if_neg Nat.one_ne_zero, Nat.add_sub_cancel' large]
      · refine ⟨binade * 0 + significand, ?_⟩
        rw [units_split _ _ (by omega), if_pos rfl, Nat.pow_zero, Nat.mul_one]
  | succ exponent ih =>
      by_cases large : binade ≤ significand
      · refine ⟨binade * (exponent + 2) + (significand - binade), ?_⟩
        rw [units_split _ _ (by omega), if_neg (Nat.succ_ne_zero _), Nat.add_sub_cancel' large]
        rfl
      · obtain ⟨index, found⟩ := ih (2 * significand) (by omega)
        refine ⟨index, ?_⟩
        rw [found, Nat.pow_succ]
        ring

theorem units_power (lap : Nat) : units (binade * (lap + 1)) = binade * 2 ^ lap := by
  have split := units_split (lap + 1) 0 binade_pos
  rwa [if_neg (Nat.succ_ne_zero lap), Nat.add_zero, Nat.add_zero, Nat.add_sub_cancel] at split

theorem units_pos (index : Nat) (positive : 0 < index) : 0 < units index := by
  rw [← units_zero]
  exact units_strict_mono positive

theorem units_succ_le (index : Nat) (positive : 0 < index) : units (index + 1) ≤ 2 * units index := by
  have spacing : 2 ^ (index / binade - 1) ≤ units index := by
    by_cases first : index / binade = 0
    · rw [first]
      exact units_pos index positive
    · obtain ⟨lap, found⟩ := Nat.exists_eq_succ_of_ne_zero first
      have start : binade * (lap + 1) ≤ index := by
        rw [← Nat.succ_eq_add_one, ← found]
        exact Nat.mul_div_le index binade
      calc 2 ^ (index / binade - 1) = 2 ^ lap := by rw [found, Nat.succ_eq_add_one, Nat.add_sub_cancel]
        _ ≤ binade * 2 ^ lap := Nat.le_mul_of_pos_left _ binade_pos
        _ = units (binade * (lap + 1)) := (units_power lap).symm
        _ ≤ units index := units_strict_mono.monotone start
  rw [units_succ]
  omega

theorem spacing_le (index : Nat) (normal : binade ≤ index) :
    binade * (units (index + 1) - units index) ≤ units index := by
  obtain ⟨lap, place, inside, rfl⟩ : ∃ lap place, place < binade ∧ index = binade * lap + place :=
    ⟨index / binade, index % binade, Nat.mod_lt _ binade_pos, (Nat.div_add_mod _ _).symm⟩
  have later : lap ≠ 0 := by
    rintro rfl
    omega
  rw [units_succ, Nat.mul_add_div binade_pos, Nat.div_eq_of_lt inside, Nat.add_zero, units_split lap place inside,
    if_neg later, Nat.add_sub_cancel_left]
  exact Nat.mul_le_mul_right _ (Nat.le_add_right _ _)

theorem spacing_mono (index : Nat) : units (index + 1) - units index ≤ units (index + 2) - units (index + 1) := by
  rw [units_succ, units_succ (index + 1), Nat.add_sub_cancel_left, units_succ, Nat.add_sub_cancel_left]
  exact Nat.pow_le_pow_right two_pos (Nat.sub_le_sub_right (Nat.div_le_div_right (Nat.le_succ _)) _)

theorem finite_of_scaled (exponent significand : Nat) (bound : significand < 2 * binade)
    (range : exponent + 2 ≤ 2047) :
    ∃ index, index < finiteCount ∧ units index = significand * 2 ^ exponent := by
  obtain ⟨index, found⟩ := units_of_scaled exponent significand bound
  have below : units index < units (binade * (exponent + 1 + 1)) := by
    rw [found, units_power, Nat.pow_succ, Nat.mul_comm (2 ^ exponent), ← Nat.mul_assoc,
      Nat.mul_comm binade]
    exact Nat.mul_lt_mul_of_pos_right bound (Nat.two_pow_pos _)
  refine ⟨index, ?_, found⟩
  calc index < binade * (exponent + 2) := units_strict_mono.lt_iff_lt.mp below
    _ ≤ binade * 2047 := Nat.mul_le_mul_left _ range
    _ = finiteCount := Nat.mul_comm _ _

theorem finite_of_scaled_le (exponent significand : Nat) (bound : significand ≤ 2 * binade)
    (range : exponent + 3 ≤ 2047) :
    ∃ index, index < finiteCount ∧ units index = significand * 2 ^ exponent := by
  by_cases top : significand = 2 * binade
  · obtain ⟨index, inside, found⟩ := finite_of_scaled (exponent + 1) binade (by decide) range
    refine ⟨index, inside, ?_⟩
    rw [found, top, Nat.pow_succ]
    ring
  · exact finite_of_scaled exponent significand (by omega) (by omega)

theorem finite_of_nat (n : Nat) (bound : n ≤ 2 * binade) :
    ∃ index, index < finiteCount ∧ units index = n * unitsInOne := by
  rw [unitsInOne, Nat.one_shiftLeft]
  exact finite_of_scaled_le unitPlaces n bound (by decide)

theorem units_multiple (index lap : Nat) (large : binade * 2 ^ lap ≤ units index) : 2 ^ lap ∣ units index := by
  obtain ⟨turn, place, inside, rfl⟩ : ∃ turn place, place < binade ∧ index = binade * turn + place :=
    ⟨index / binade, index % binade, Nat.mod_lt _ binade_pos, (Nat.div_add_mod _ _).symm⟩
  rw [← units_power, units_strict_mono.le_iff_le] at large
  have late : lap + 1 ≤ turn := by
    by_contra early
    have bound : binade * (turn + 1) ≤ binade * (lap + 1) := Nat.mul_le_mul_left _ (by omega)
    rw [Nat.mul_add] at bound
    omega
  rw [units_split turn place inside, if_neg (by omega)]
  exact Nat.dvd_mul_left_of_dvd (Nat.pow_dvd_pow 2 (by omega)) _

theorem units_whole (index : Nat) (large : binade * unitsInOne ≤ units index) :
    unitsInOne ∣ units index := by
  obtain ⟨lap, same⟩ : ∃ lap, lap = unitPlaces := ⟨_, rfl⟩
  rw [unitsInOne, Nat.one_shiftLeft, ← same] at large ⊢
  exact units_multiple index lap large

end Aggregation.Binary64
