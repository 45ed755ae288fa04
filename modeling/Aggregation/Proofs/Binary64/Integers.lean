import Mathlib
import Aggregation.Binary64.Arithmetic
import Aggregation.Binary64.Integral
import Aggregation.Proofs.Binary64.Order
import Aggregation.Proofs.Binary64.Rounding

set_option autoImplicit false

namespace Aggregation.Binary64

def roundedPlace (n : Int) : Int :=
  signed (n < 0) (units (indexOfRatio n.natAbs 1))

theorem place_of_int (n : Int) : (ofInt n).place? = some (roundedPlace n) :=
  place_of_index _ _ (index_of_units_bound _ 1 Nat.one_pos)

theorem rounded_le (n : Int) (x : Binary64) (place : Int) (found : x.place? = some place)
    (le : n * unitsInOne ≤ place) : roundedPlace n ≤ place := by
  obtain ⟨negative, index, inside, rfl⟩ := place_form x place found
  apply rounded_place_le _ 1 index Nat.one_pos inside
  rwa [signed_mul, signed_nat_abs, Nat.cast_one, mul_one]

theorem le_rounded (n : Int) (x : Binary64) (place : Int) (found : x.place? = some place)
    (le : place ≤ n * unitsInOne) : place ≤ roundedPlace n := by
  obtain ⟨negative, index, inside, rfl⟩ := place_form x place found
  apply le_rounded_place _ 1 index Nat.one_pos inside
  rwa [signed_mul, signed_nat_abs, Nat.cast_one, mul_one]

theorem rounded_neg (n : Int) : roundedPlace (-n) = -roundedPlace n := by
  have least : indexOfRatio 0 1 = 0 :=
    index_of_units_exact 1 0 Nat.one_pos (Nat.zero_le _)
  rw [roundedPlace, roundedPlace, Int.natAbs_neg]
  rcases lt_trichotomy n 0 with less | same | more
  · simp [signed, less, less.le]
  · simp [signed, same, least, units_zero]
  · simp [signed, more, more.le]

theorem rounded_nat (n : Nat) : roundedPlace n = units (indexOfRatio n 1) := by
  rw [roundedPlace, Int.natAbs_natCast, signed, if_neg (by simp)]

theorem units_of_exact (n : Nat) (bound : n ≤ 2 * binade) :
    units (indexOfRatio n 1) = n * unitsInOne := by
  obtain ⟨index, inside, found⟩ := finite_of_nat n bound
  have same := index_of_units_exact 1 index Nat.one_pos inside.le
  rw [indexOfRatio, ← found, ← Nat.mul_one (units index), same, Nat.mul_one]

theorem rounded_whole_nat (n : Nat) : unitsInOne ∣ units (indexOfRatio n 1) := by
  by_cases bound : n ≤ 2 * binade
  · rw [units_of_exact n bound]
    exact Nat.dvd_mul_left _ _
  · obtain ⟨index, inside, found⟩ := finite_of_nat (2 * binade) (le_refl _)
    have above : units index * 1 ≤ n * unitsInOne := by
      rw [found, Nat.mul_one]
      exact Nat.mul_le_mul_right _ (by omega)
    apply units_whole
    calc binade * unitsInOne ≤ 2 * binade * unitsInOne := Nat.mul_le_mul_right _ (by omega)
      _ = units index := found.symm
      _ ≤ units (indexOfRatio n 1) := le_units_of_ratio n 1 index Nat.one_pos inside.le above

theorem rounded_whole (n : Int) : (unitsInOne : Int) ∣ roundedPlace n := by
  obtain ⟨m, rfl | rfl⟩ := n.eq_nat_or_neg
  · rw [rounded_nat]
    exact Int.natCast_dvd_natCast.mpr (rounded_whole_nat m)
  · rw [rounded_neg, rounded_nat]
    exact (Int.natCast_dvd_natCast.mpr (rounded_whole_nat m)).neg_right

theorem word_units_inside (n : Int64) : ∃ index, index < finiteCount ∧
    -(units index : Int) ≤ n.toInt * unitsInOne ∧ n.toInt * unitsInOne ≤ units index := by
  obtain ⟨index, inside, found⟩ := finite_of_scaled (unitPlaces + 11) binade (by decide) (by decide)
  have top : (units index : Int) = 2 ^ 63 * unitsInOne := by
    rw [found, unitsInOne, Nat.one_shiftLeft, Nat.pow_add, show binade = 2 ^ 52 from by decide]
    push_cast
    ring
  have unit : (0 : Int) ≤ unitsInOne := Int.natCast_nonneg _
  refine ⟨index, inside, ?_, ?_⟩
  · rw [top, ← neg_mul]
    exact mul_le_mul_of_nonneg_right n.le_toInt unit
  · rw [top]
    exact mul_le_mul_of_nonneg_right n.toInt_lt.le unit

theorem word_inside (n : Int64) : -(units finiteCount : Int) < n.toInt * unitsInOne ∧
    n.toInt * unitsInOne < units finiteCount := by
  obtain ⟨index, inside, low, high⟩ := word_units_inside n
  have below := units_strict_mono inside
  omega

theorem rounded_word_inside (n : Int64) : -(units finiteCount : Int) < roundedPlace n.toInt ∧
    roundedPlace n.toInt < units finiteCount := by
  obtain ⟨index, inside, low, high⟩ := word_units_inside n
  have below := units_strict_mono inside
  have lower := le_rounded n.toInt (ofIndex true index) _ (place_of_index true index inside.le) low
  have upper := rounded_le n.toInt (ofIndex false index) _ (place_of_index false index inside.le) high
  rw [signed_true] at lower
  rw [signed_false] at upper
  omega

theorem truncated_whole (x : Binary64) (place : Int) (found : x.place? = some place)
    (low : -(units finiteCount : Int) < place) (high : place < units finiteCount)
    (whole : (unitsInOne : Int) ∣ place) : x.truncated * unitsInOne = place := by
  cases x with
  | nan => cases found
  | infinity negative =>
      cases found
      cases negative <;> simp at low high
  | finite negative index =>
      cases found
      have divides : unitsInOne ∣ units index.val := by
        cases negative with
        | false => exact Int.natCast_dvd_natCast.mp whole
        | true => exact Int.natCast_dvd_natCast.mp (Int.dvd_neg.mp whole)
      have restored := Nat.div_mul_cancel divides
      cases negative with
      | false => rw [truncated, signed_false, signed_false, ← Nat.cast_mul, restored]
      | true => rw [truncated, signed_true, signed_true, neg_mul, ← Nat.cast_mul, restored]

theorem ceiling_div_le_iff (n m : Nat) :
    (n + (unitsInOne - 1)) / unitsInOne ≤ m ↔ n ≤ m * unitsInOne := by
  have unit := units_in_one_pos
  rw [Nat.div_le_iff_le_mul_add_pred unit, Nat.mul_comm]
  omega

theorem ceiling_le_iff (x : Binary64) (m : Nat) (number : x ≠ .nan) (few : m < greatestCount) :
    x.ceilingCount ≤ m ↔ x.standing ≤ .ofRat m := by
  cases x with
  | nan => exact absurd rfl number
  | infinity negative =>
      cases negative with
      | true => exact ⟨fun _ => (Standing.infinite_lt_rat _).le, fun _ => Nat.zero_le _⟩
      | false =>
          exact ⟨fun le => absurd le few.not_ge, fun le => absurd le (Standing.rat_lt_infinite _).not_ge⟩
  | finite negative index =>
      rw [standing, Standing.of_rat_strict_mono.le_iff_le, value_eq_units, div_le_iff₀ unit_rat_pos, ceilingCount]
      cases negative with
      | true =>
          rw [signed_true, if_pos rfl]
          have low : (((-(units index.val : Int) : Int)) : ℚ) ≤ m * unitsInOne := by
            exact_mod_cast (Int.neg_nonpos_of_nonneg (Int.natCast_nonneg _)).trans (Int.natCast_nonneg _)
          exact ⟨fun _ => low, fun _ => Nat.zero_le m⟩
      | false =>
          rw [if_neg Bool.false_ne_true, min_le_iff, or_iff_right few.not_ge, ceiling_div_le_iff, signed_false]
          exact_mod_cast Iff.rfl

theorem of_nat_form (n : Nat) (positive : 0 < n) :
    ∃ index, 0 < index ∧ index ≤ finiteCount ∧ ofNat n = ofIndex false index := by
  have least : units 1 ≤ units (indexOfRatio n 1) := by
    apply le_units_of_ratio n 1 1 Nat.one_pos (Nat.mul_pos (by decide) binade_pos)
    rw [units_one]
    exact Nat.mul_le_mul positive units_in_one_pos
  exact ⟨_, units_strict_mono.le_iff_le.mp least, index_of_units_bound _ 1 Nat.one_pos, rfl⟩

theorem of_nat_nonzero (n : Nat) (positive : 0 < n) : (ofNat n).isZero = false := by
  obtain ⟨index, later, _, same⟩ := of_nat_form n positive
  rw [same, ofIndex]
  split
  · simpa [isZero] using later.ne'
  · rfl

theorem of_int_nat (n : Nat) : ofInt n = ofNat n := by
  have positive : decide ((n : Int) < 0) = false := by simp
  rw [ofInt, ofNat, positive, Int.natAbs_natCast]

theorem of_int_form (n : Int) (bound : n.natAbs ≤ 2 * binade) :
    ∃ index : Fin finiteCount, ofInt n = .finite (n < 0) index ∧ units index.val = n.natAbs * unitsInOne := by
  obtain ⟨index, inside, found⟩ := finite_of_nat n.natAbs bound
  refine ⟨⟨index, inside⟩, ?_, found⟩
  have same := index_of_units_exact 1 index Nat.one_pos inside.le
  rw [Nat.mul_one, found] at same
  rw [ofInt, ofRatio, indexOfRatio, same, ofIndex, dif_pos inside]

theorem of_int_zero : ofInt 0 = zero := by
  have least : indexOfUnits 0 1 = 0 := index_of_units_exact 1 0 Nat.one_pos (Nat.zero_le _)
  rw [ofInt, ofRatio, indexOfRatio, Int.natAbs_zero, Nat.zero_mul, least]
  rfl

theorem of_int_add (m n : Int) (left : m.natAbs ≤ 2 * binade) (right : n.natAbs ≤ 2 * binade) :
    ofInt m + ofInt n = ofInt (m + n) := by
  obtain ⟨i, leftForm, leftUnits⟩ := of_int_form m left
  obtain ⟨j, rightForm, rightUnits⟩ := of_int_form n right
  have total : signed (m < 0) (units i.val) + signed (n < 0) (units j.val) = (m + n) * unitsInOne := by
    rw [leftUnits, rightUnits, signed_mul, signed_mul, signed_nat_abs, signed_nat_abs, Int.add_mul]
  have unit : (0 : Int) < unitsInOne := Int.natCast_pos.mpr units_in_one_pos
  rw [leftForm, rightForm]
  change (if _ then _ else _ : Binary64) = _
  rw [total]
  by_cases cancels : m + n = 0
  · have both : (decide (m < 0) && decide (n < 0)) = false := by
      rw [← Bool.decide_and, decide_eq_false_iff_not]
      omega
    rw [if_pos (by rw [cancels, Int.zero_mul]), both, cancels, of_int_zero]
    rfl
  · have scaled : (m + n) * unitsInOne < 0 * unitsInOne ↔ m + n < 0 := mul_lt_mul_iff_left₀ unit
    rw [zero_mul] at scaled
    have sign : decide ((m + n) * unitsInOne < 0) = decide (m + n < 0) := by simp only [scaled]
    rw [if_neg (mul_ne_zero cancels unit.ne'), ofUnits, sign, Int.natAbs_mul, Int.natAbs_natCast]
    rfl

theorem index_of_units_ratio (m n : Nat) (positive : 0 < n) :
    indexOfUnits (m * unitsInOne * unitsInOne) (n * unitsInOne) = indexOfRatio m n := by
  have scaled := Nat.mul_pos positive units_in_one_pos
  refine le_antisymm (index_of_units_mono _ _ _ _ scaled positive ?_)
    (index_of_units_mono _ _ _ _ positive scaled ?_) <;>
    exact le_of_eq (by ring)

theorem of_int_div (m : Int) (n : Nat) (left : m.natAbs ≤ 2 * binade) (right : n ≤ 2 * binade)
    (positive : 0 < n) : ofInt m / ofNat n = ofRatio (m < 0) m.natAbs n := by
  obtain ⟨i, leftForm, leftUnits⟩ := of_int_form m left
  obtain ⟨j, rightForm, rightUnits⟩ := of_int_form n (by rwa [Int.natAbs_natCast])
  have sign : decide ((n : Int) < 0) = false := by simp
  rw [Int.natAbs_natCast] at rightUnits
  have later : j.val ≠ 0 := by
    intro none
    rw [none, units_zero] at rightUnits
    exact (Nat.mul_pos positive units_in_one_pos).ne rightUnits
  rw [← of_int_nat, leftForm, rightForm, sign]
  change (if _ then _ else _ : Binary64) = _
  rw [if_neg later, Bool.bne_false, ofRatio, indexOfRatio, leftUnits, rightUnits, index_of_units_ratio m.natAbs n positive]
  rfl

end Aggregation.Binary64
