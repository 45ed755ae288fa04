import Mathlib
import Aggregation.Binary64.Arithmetic
import Aggregation.Proofs.Binary64.Follows
import Aggregation.Proofs.Binary64.Nearest
import Aggregation.Proofs.Binary64.Scaling

set_option autoImplicit false

namespace Aggregation.Binary64

open Standing

def isFinite : Binary64 → Bool
  | .finite _ _ => true
  | _ => false

theorem is_finite_iff (x : Binary64) : x.isFinite = true ↔ ∃ q, x.standing = ofRat q := by
  constructor
  · intro finite
    cases x with
    | nan => cases finite
    | infinity negative => cases finite
    | finite negative index => exact ⟨_, rfl⟩
  · rintro ⟨q, exact_x⟩
    obtain ⟨negative, index, rfl, _⟩ := finite_of_standing x q exact_x
    rfl

theorem not_negative_rounded (x : Binary64) (q : ℚ) (stands : x.standing = rounded q) (low : 0 ≤ q) :
    zero.atMost x = true := by
  have number : x ≠ .nan := by
    rintro rfl
    exact absurd stands (rounded_lt_top q).ne'
  rw [at_most_iff zero x number, is_zero_standing zero rfl, stands]
  exact rounded_zero.ge.trans (rounded_mono low)

theorem not_negative_exact (x : Binary64) (q : ℚ) (exact_x : x.standing = ofRat q) :
    zero.atMost x = true ↔ 0 ≤ q := by
  have number : x ≠ .nan := by
    rintro rfl
    cases exact_x
  rw [at_most_iff zero x number, is_zero_standing zero rfl, exact_x]
  exact of_rat_strict_mono.le_iff_le

theorem not_negative_forms (x : Binary64) (low : zero.atMost x = true) :
    x = .infinity false ∨ ∃ q, 0 ≤ q ∧ x.standing = ofRat q := by
  cases x with
  | nan => cases low
  | infinity negative =>
      cases negative with
      | true => exact absurd low (by decide +kernel)
      | false => exact .inl rfl
  | finite negative index => exact .inr ⟨_, (not_negative_exact _ _ rfl).mp low, rfl⟩

theorem zero_not_negative : zero.atMost zero = true := by decide +kernel

theorem infinity_not_negative : zero.atMost (.infinity false) = true := by decide +kernel

theorem of_index_not_negative (index : Nat) : zero.atMost (ofIndex false index) = true := by
  by_cases inside : index < finiteCount
  · rw [ofIndex, dif_pos inside, not_negative_exact _ _ rfl, value_eq_units]
    exact div_nonneg (Int.cast_nonneg (Int.natCast_nonneg _)) (Nat.cast_nonneg _)
  · rw [ofIndex, dif_neg inside]
    exact infinity_not_negative

theorem add_not_negative (x y : Binary64) (left : zero.atMost x = true) (right : zero.atMost y = true) :
    zero.atMost (x + y) = true := by
  rcases not_negative_forms x left with rfl | ⟨p, pLow, exact_x⟩
  · rcases not_negative_forms y right with rfl | ⟨q, qLow, exact_y⟩
    · exact infinity_not_negative
    · obtain ⟨negative, index, rfl, _⟩ := finite_of_standing y q exact_y
      exact infinity_not_negative
  · rcases not_negative_forms y right with rfl | ⟨q, qLow, exact_y⟩
    · obtain ⟨negative, index, rfl, _⟩ := finite_of_standing x p exact_x
      exact infinity_not_negative
    · exact not_negative_rounded _ _ (add_rounded x y p q exact_x exact_y) (add_nonneg pLow qLow)

theorem div_not_negative (x y : Binary64) (q : ℚ) (low : zero.atMost x = true)
    (exact_y : y.standing = ofRat q) (positive : 0 < q) : zero.atMost (x / y) = true := by
  rcases not_negative_forms x low with rfl | ⟨p, pLow, exact_x⟩
  · obtain ⟨index, _, rfl, _⟩ := positive_form y q exact_y positive
    exact infinity_not_negative
  · exact not_negative_rounded _ _ (div_rounded x y p q exact_x exact_y positive.ne')
      (div_nonneg pLow positive.le)

theorem sqrt_not_negative (x : Binary64) (low : zero.atMost x = true) : zero.atMost x.sqrt = true := by
  rcases not_negative_cases x low with none | ⟨index, later, _, rfl⟩
  · cases x with
    | nan => cases none
    | infinity negative => cases none
    | finite negative index =>
        have same : (finite negative index).sqrt = finite negative index := if_pos (beq_iff_eq.mp none)
        rwa [same]
  · by_cases inside : index < finiteCount
    · rw [ofIndex, dif_pos inside, sqrt, if_neg later.ne', if_neg Bool.false_ne_true]
      exact of_index_not_negative _
    · rw [ofIndex, dif_neg inside]
      exact infinity_not_negative

theorem sqrt_forms (x : Binary64) : x.sqrt = .nan ∨ zero.atMost x.sqrt = true := by
  cases x with
  | nan => exact .inl rfl
  | infinity negative =>
      cases negative with
      | true => exact .inl rfl
      | false => exact .inr infinity_not_negative
  | finite negative index =>
      rw [sqrt]
      split
      next none =>
        right
        have stands : (finite negative index).standing = ofRat 0 := is_zero_standing _ (beq_iff_eq.mpr none)
        exact (not_negative_exact _ _ stands).mpr (le_refl _)
      next =>
        split
        next => exact .inl rfl
        next => exact .inr (of_index_not_negative _)

theorem sqrt_of_index (index : Nat) (later : 0 < index) : ∃ root, 0 < root ∧
    (ofIndex false index).sqrt = ofIndex false root ∧ (index < finiteCount → root < finiteCount) := by
  by_cases inside : index < finiteCount
  · rw [ofIndex, dif_pos inside, sqrt, if_neg later.ne', if_neg Bool.false_ne_true]
    have measures := measures_root (4 * units index * unitsInOne)
    have positive := Nat.mul_pos (units_pos index later) units_in_one_pos
    refine ⟨_, lt_nearest_index _ _ measures 0 (by decide) ?_, rfl, fun _ => ?_⟩
    · have middle : midpoint 0 = 1 := by decide
      have square : 1 < 4 * units index * unitsInOne := by
        rw [Nat.mul_assoc]
        omega
      rw [middle, Real.lt_sqrt (Nat.cast_nonneg 1), Nat.cast_one, one_pow]
      exact_mod_cast square
    · obtain ⟨top, topIn, reaches⟩ : ∃ top, top < finiteCount ∧ units index * unitsInOne ≤ units top * units top := by
        rcases le_total (units index) unitsInOne with small | large
        · obtain ⟨top, topIn, found⟩ := finite_of_nat 1 (by decide)
          rw [Nat.one_mul] at found
          refine ⟨top, topIn, ?_⟩
          rw [found]
          exact Nat.mul_le_mul_right _ small
        · exact ⟨index, inside, Nat.mul_le_mul_left _ large⟩
      refine (nearest_index_short _ _ measures top ?_).trans_lt topIn
      have square : (4 * units index * unitsInOne : Nat) ≤ ((2 * units top : Nat) : ℝ) ^ 2 := by
        rw [← Nat.cast_pow, Nat.cast_le, Nat.mul_assoc]
        calc 4 * (units index * unitsInOne) ≤ 4 * (units top * units top) := Nat.mul_le_mul_left 4 reaches
          _ = (2 * units top) ^ 2 := by ring
      calc √((4 * units index * unitsInOne : Nat) : ℝ) ≤ (2 * units top : Nat) :=
            Real.sqrt_le_iff.mpr ⟨Nat.cast_nonneg _, square⟩
        _ < midpoint top := by
            rw [Nat.cast_lt, midpoint, units_succ]
            have spacing := Nat.two_pow_pos (top / binade - 1)
            omega
  · refine ⟨finiteCount, by decide, ?_, fun less => absurd less inside⟩
    rw [ofIndex, ofIndex, dif_neg inside, dif_neg (lt_irrefl _)]
    rfl

theorem div_forms (x : Binary64) (index : Nat) (later : 0 < index) (low : x = .nan ∨ zero.atMost x = true) :
    x / ofIndex false index = .nan ∨ zero.atMost (x / ofIndex false index) = true := by
  rcases low with rfl | low
  · exact .inl (by cases ofIndex false index <;> rfl)
  by_cases inside : index < finiteCount
  · right
    rw [ofIndex, dif_pos inside]
    refine div_not_negative x _ _ low rfl ?_
    rw [value_eq_units]
    exact div_pos (Nat.cast_pos.mpr (units_pos index later)) unit_rat_pos
  · rw [ofIndex, dif_neg inside]
    rcases not_negative_forms x low with rfl | ⟨p, _, exact_x⟩
    · exact .inl rfl
    · obtain ⟨negative, place, rfl, _⟩ := finite_of_standing x p exact_x
      right
      change zero.atMost (signedZero (negative != false)) = true
      cases negative <;> decide +kernel

theorem mul_not_negative_mono (y z x : Binary64) (p q : ℚ) (exact_y : y.standing = ofRat p)
    (exact_z : z.standing = ofRat q) (positive : 0 < p) (le : p ≤ q) (low : zero.atMost x = true) :
    zero.atMost (y * x) = true ∧ (y * x).atMost (z * x) = true := by
  have above := positive.trans_le le
  rcases not_negative_forms x low with rfl | ⟨r, rLow, exact_x⟩
  · obtain ⟨i, iPos, rfl, _⟩ := positive_form y p exact_y positive
    obtain ⟨j, jPos, rfl, _⟩ := positive_form z q exact_z above
    have infinite (index : Fin finiteCount) (later : 0 < index.val) :
        finite false index * .infinity false = .infinity false := if_neg later.ne'
    rw [infinite i iPos, infinite j jPos]
    exact ⟨infinity_not_negative, at_most_refl _ Binary64.noConfusion⟩
  · have left := mul_rounded y x p r exact_y exact_x
    have right := mul_rounded z x q r exact_z exact_x
    have number := rounds_number _ _ (rounds_of_rounded _ _ right)
    refine ⟨not_negative_rounded _ _ left (mul_nonneg positive.le rLow), ?_⟩
    rw [at_most_iff _ _ number, left, right]
    exact rounded_mono (mul_le_mul_of_nonneg_right le rLow)

inductive Sunk : Binary64 → Prop where
  | nan : Sunk .nan
  | infinity : Sunk (.infinity true)

theorem sunk_negative (x : Binary64) (sunk : Sunk x) : zero.atMost x = false := by
  cases sunk with
  | nan => rfl
  | infinity => decide +kernel

theorem sunk_div (x : Binary64) (index : Fin finiteCount) (sunk : Sunk x) : Sunk (x / finite false index) := by
  cases sunk with
  | nan => exact .nan
  | infinity => exact .infinity

theorem sunk_sqrt (x : Binary64) (sunk : Sunk x) : Sunk x.sqrt := by
  cases sunk <;> exact .nan

theorem sunk_add (x : Binary64) (low : zero.atMost x = true) : Sunk (x + .infinity true) := by
  rcases not_negative_forms x low with rfl | ⟨q, _, exact_x⟩
  · exact .nan
  · obtain ⟨negative, index, rfl, _⟩ := finite_of_standing x q exact_x
    exact .infinity

end Aggregation.Binary64
