import Mathlib
import Aggregation.Binary64.Arithmetic
import Aggregation.Binary64.Integral
import Aggregation.Proofs.Binary64.Order
import Aggregation.Proofs.Binary64.Rounding

set_option autoImplicit false

namespace Aggregation.Binary64

theorem at_most_number (x y : Binary64) (le : x.atMost y = true) : y ≠ .nan := by
  rintro rfl
  rw [atMost, compareNumbers?] at le
  cases place : x.place? with
  | none => simp [place] at le
  | some p => simp [place?] at le

theorem at_most_trans (x y z : Binary64) (left : x.atMost y = true) (right : y.atMost z = true) :
    x.atMost z = true := by
  have middle := at_most_number x y left
  have last := at_most_number y z right
  rw [at_most_iff _ _ middle] at left
  rw [at_most_iff _ _ last] at right ⊢
  exact left.trans right

theorem at_most_places (x y : Binary64) (p q : Int) (left : x.place? = some p) (right : y.place? = some q) :
    x.atMost y = true ↔ p ≤ q := by
  have number : y ≠ .nan := by
    rintro rfl
    cases right
  obtain ⟨pIn, pStanding⟩ := place_standing x p left
  obtain ⟨qIn, qStanding⟩ := place_standing y q right
  rw [at_most_iff x y number, pStanding, qStanding, of_place_strict_mono.le_iff_le pIn qIn]

theorem at_most_of_index (i j : Nat) (iIn : i ≤ finiteCount) (jIn : j ≤ finiteCount) :
    (ofIndex false i).atMost (ofIndex false j) = true ↔ i ≤ j := by
  rw [at_most_places _ _ _ _ (place_of_index false i iIn) (place_of_index false j jIn), signed_false,
    signed_false, Int.ofNat_le, units_strict_mono.le_iff_le]

theorem not_negative_cases (x : Binary64) (low : zero.atMost x = true) :
    x.isZero = true ∨ ∃ index, 0 < index ∧ index ≤ finiteCount ∧ x = ofIndex false index := by
  cases x with
  | nan => cases low
  | infinity negative =>
      cases negative with
      | true => exact absurd low (by decide +kernel)
      | false => exact .inr ⟨finiteCount, by decide, le_refl _, by simp [ofIndex]⟩
  | finite negative index =>
      rcases Nat.eq_zero_or_pos index.val with none | positive
      · exact .inl (by simpa [isZero] using none)
      · refine .inr ⟨index.val, positive, index.isLt.le, ?_⟩
        have above : 0 < units index.val := units_zero ▸ units_strict_mono positive
        have place := (at_most_places _ _ 0 _ (by decide +kernel) rfl).mp low
        cases negative with
        | true =>
            rw [signed_true] at place
            omega
        | false => rw [ofIndex, dif_pos index.isLt]

section Products

def productIndex (i j : Nat) : Nat :=
  if i < finiteCount ∧ j < finiteCount then indexOfUnits (units i * units j) unitsInOne else finiteCount

theorem product_index_bound (i j : Nat) : productIndex i j ≤ finiteCount := by
  rw [productIndex]
  split
  · exact index_of_units_bound _ _ units_in_one_pos
  · exact le_refl _

theorem product_index_mono (i j k : Nat) (le : i ≤ j) : productIndex i k ≤ productIndex j k := by
  by_cases finite : j < finiteCount ∧ k < finiteCount
  · have scaled : units i * units k ≤ units j * units k :=
      Nat.mul_le_mul_right _ (units_strict_mono.monotone le)
    rw [productIndex, productIndex, if_pos finite, if_pos ⟨le.trans_lt finite.1, finite.2⟩]
    exact index_of_units_mono _ _ _ _ units_in_one_pos units_in_one_pos (Nat.mul_le_mul_right _ scaled)
  · rw [productIndex.eq_def j k, if_neg finite]
    exact product_index_bound i k

theorem mul_comm (x y : Binary64) : x * y = y * x := by
  change mul x y = mul y x
  cases x with
  | nan => cases y <;> rfl
  | infinity a =>
      cases y with
      | nan => rfl
      | infinity b => rw [mul, mul, bne_comm]
      | finite b j => rw [mul, mul, bne_comm]
  | finite a i =>
      cases y with
      | nan => rfl
      | infinity b => rw [mul, mul, bne_comm]
      | finite b j => rw [mul, mul, bne_comm, Nat.mul_comm]

theorem mul_of_index (i j : Nat) (iPos : 0 < i) (jPos : 0 < j) :
    ofIndex false i * ofIndex false j = ofIndex false (productIndex i j) := by
  have infinite : ofIndex false finiteCount = .infinity false := by simp [ofIndex]
  change mul _ _ = _
  rw [productIndex]
  by_cases iIn : i < finiteCount <;> by_cases jIn : j < finiteCount
  · rw [if_pos ⟨iIn, jIn⟩, ofIndex, ofIndex, dif_pos iIn, dif_pos jIn]
    rfl
  · rw [if_neg (by omega), infinite, ofIndex, ofIndex, dif_pos iIn, dif_neg jIn, mul, if_neg iPos.ne']
    rfl
  · rw [if_neg (by omega), infinite, ofIndex, ofIndex, dif_neg iIn, dif_pos jIn, mul, if_neg jPos.ne']
    rfl
  · rw [if_neg (by omega), infinite, ofIndex, ofIndex, dif_neg iIn, dif_neg jIn]
    rfl

end Products

theorem ceiling_of_index_mono (i j : Nat) (le : i ≤ j) :
    (ofIndex false i).ceilingCount ≤ (ofIndex false j).ceilingCount := by
  by_cases jIn : j < finiteCount
  · rw [ofIndex, ofIndex, dif_pos jIn, dif_pos (le.trans_lt jIn)]
    simp only [ceilingCount, Bool.false_eq_true, if_false]
    exact min_le_min_left _ (Nat.div_le_div_right (Nat.add_le_add_right (units_strict_mono.monotone le) _))
  · rw [ofIndex.eq_def false j, dif_neg jIn, ofIndex]
    split
    · simp only [ceilingCount, Bool.false_eq_true, if_false]
      exact min_le_left _ _
    · exact le_refl _

section Zeros

variable (x z : Binary64) (vanishes : x.isZero = true)

include vanishes

theorem ceiling_zero_mul : (x * z).ceilingCount = 0 := by
  cases x with
  | nan => cases vanishes
  | infinity negative => cases vanishes
  | finite negative index =>
      rw [isZero, beq_iff_eq] at vanishes
      change (mul _ _).ceilingCount = 0
      cases z with
      | nan => rfl
      | infinity other => rw [mul, if_pos vanishes, ceilingCount]
      | finite other place =>
          have product : units index.val * units place.val = units 0 * unitsInOne := by
            rw [vanishes, units_zero, Nat.zero_mul, Nat.zero_mul]
          rw [mul, ofUnits, product, index_of_units_exact unitsInOne 0 units_in_one_pos (Nat.zero_le _)]
          cases negative <;> cases other <;> decide +kernel

theorem ceiling_mul_zero : (z * x).ceilingCount = 0 := by
  have swapped : z * x = x * z := mul_comm z x
  rw [swapped, ceiling_zero_mul x z vanishes]

end Zeros

theorem ceiling_mul_mono (x y z : Binary64) (low : zero.atMost x = true) (le : x.atMost y = true)
    (scale : zero.atMost z = true) : (x * z).ceilingCount ≤ (y * z).ceilingCount := by
  rcases not_negative_cases z scale with vanishes | ⟨k, kPos, kIn, rfl⟩
  · rw [ceiling_mul_zero z x vanishes]
    exact Nat.zero_le _
  rcases not_negative_cases x low with vanishes | ⟨i, iPos, iIn, rfl⟩
  · rw [ceiling_zero_mul x _ vanishes]
    exact Nat.zero_le _
  rcases not_negative_cases y (at_most_trans _ _ y low le) with vanishes | ⟨j, jPos, jIn, rfl⟩
  · have least : y.atMost (ofIndex false 0) = true := by
      rw [at_most_iff y _ (by decide), is_zero_standing y vanishes, is_zero_standing _ rfl]
    have empty := (at_most_of_index i 0 iIn (Nat.zero_le _)).mp (at_most_trans _ _ _ le least)
    omega
  · rw [at_most_of_index i j iIn jIn] at le
    rw [mul_of_index i k iPos kPos, mul_of_index j k jPos kPos]
    exact ceiling_of_index_mono _ _ (product_index_mono i j k le)

end Aggregation.Binary64
