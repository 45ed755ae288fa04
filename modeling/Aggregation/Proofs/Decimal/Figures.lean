import Mathlib
import Aggregation.Proofs.Decimal.Value

set_option autoImplicit false

namespace Aggregation.Decimal

open Binary64

theorem of_digit_chars_zeros (digits : List Char) (zeros : Nat) :
    Nat.ofDigitChars 10 (digits ++ List.replicate zeros '0') 0 =
      Nat.ofDigitChars 10 digits 0 * 10 ^ zeros := by
  rw [Nat.ofDigitChars_append, Nat.ofDigitChars_replicate_zero, Nat.mul_comm]

theorem figures_trimmed (d : Decimal) :
    ∃ zeros, Nat.toDigits 10 d.significand = d.figures ++ List.replicate zeros '0' := by
  have split := List.takeWhile_append_dropWhile (p := (· == '0'))
    (l := (Nat.toDigits 10 d.significand).reverse)
  refine ⟨((Nat.toDigits 10 d.significand).reverse.takeWhile (· == '0')).length, ?_⟩
  have trimmed : (Nat.toDigits 10 d.significand).reverse.takeWhile (· == '0') =
      List.replicate ((Nat.toDigits 10 d.significand).reverse.takeWhile (· == '0')).length '0' :=
    List.eq_replicate_iff.mpr ⟨rfl, fun c inside => by simpa using List.mem_takeWhile_imp inside⟩
  rw [← List.reverse_replicate, ← trimmed, figures, ← List.reverse_append, split, List.reverse_reverse]

theorem figures_digits (d : Decimal) (c : Char) (inside : c ∈ d.figures) : c.isDigit = true := by
  obtain ⟨zeros, trimmed⟩ := figures_trimmed d
  exact Nat.isDigit_of_mem_toDigits (by decide) (le_refl 10)
    (trimmed ▸ List.mem_append_left _ inside)

theorem value_of_figures (d : Decimal) :
    value ⟨Nat.ofDigitChars 10 d.figures 0, d.point - d.figures.length⟩ = d.value := by
  obtain ⟨zeros, trimmed⟩ := figures_trimmed d
  have length := congrArg List.length trimmed
  rw [List.length_append, List.length_replicate] at length
  have significand : d.significand = Nat.ofDigitChars 10 d.figures 0 * 10 ^ zeros := by
    rw [← of_digit_chars_zeros, ← trimmed, Nat.ofDigitChars_ten_toDigits]
  have scaled := value_scaled (Nat.ofDigitChars 10 d.figures 0) zeros d.exponent
  rw [← significand] at scaled
  rw [point, length, show ((d.figures.length + zeros : Nat) + d.exponent - d.figures.length : Int) =
    d.exponent + zeros by omega]
  exact scaled.symm

def FewDigits (places n : Nat) : Prop := n < 10 ^ places

theorem few_digits_length (places n : Nat) (positive : 0 < places) (few : FewDigits places n) :
    (Nat.toDigits 10 n).length ≤ places :=
  (Nat.length_toDigits_le_iff (by decide) positive).mpr few

theorem few_digits_of_le (places n m : Nat) (few : FewDigits places n) (le : m ≤ n) :
    FewDigits places m :=
  lt_of_le_of_lt le few

theorem few_digits_div (places n m : Nat) (few : FewDigits places n) : FewDigits places (n / m) :=
  few_digits_of_le places n _ few (Nat.div_le_self n m)

theorem few_digits_more (places more n : Nat) (few : FewDigits places n) (le : places ≤ more) :
    FewDigits more n :=
  lt_of_lt_of_le few (Nat.pow_le_pow_right (by decide) le)

theorem few_digits_mul (places scale n m : Nat) (few : FewDigits places n) (le : m ≤ 10 ^ scale) :
    FewDigits (places + scale) (n * m) := by
  rw [FewDigits, Nat.pow_add]
  calc n * m ≤ n * 10 ^ scale := Nat.mul_le_mul_left n le
    _ < 10 ^ places * 10 ^ scale := Nat.mul_lt_mul_of_pos_right few (Nat.pow_pos (by decide))

theorem few_digits_shift (places scale n : Nat) (few : FewDigits places n) :
    FewDigits (places + scale) (n * Nat.pow 10 scale) :=
  few_digits_mul places scale n _ few (le_refl _)

theorem few_digits_zero (places : Nat) : FewDigits places 0 :=
  Nat.pow_pos (by decide)

theorem few_digits_succ (places n : Nat) (few : FewDigits places n) : FewDigits (places + 1) (n + 1) := by
  have power := Nat.pow_pos (n := places) (show 0 < 10 by decide)
  rw [FewDigits] at few ⊢
  omega

theorem units_few_digits (index : Nat) (inside : index < finiteCount) :
    FewDigits 700 (units index) := by
  have eights (k : Nat) : 2 ^ (3 * k) ≤ 10 ^ k := by
    rw [Nat.pow_mul]
    exact Nat.pow_le_pow_left (by decide) k
  have top : units finiteCount = binade * 2 ^ (3 * 682) := by
    rw [← units_power, show binade * (3 * 682 + 1) = finiteCount by decide]
  have few := few_digits_mul 16 682 binade _ (show binade < 10 ^ 16 by decide) (eights 682)
  rw [← top] at few
  exact few_digits_more _ 700 _ (few_digits_of_le _ _ _ few (units_strict_mono inside).le) (by decide)

-- Bounds that are far from tight: enough for an exponent of a few digits.
structure Moderate (d : Decimal) : Prop where
  significand : FewDigits 2000 d.significand
  low : -2000 ≤ d.exponent
  high : d.exponent ≤ 2000

theorem exact_moderate (index : Nat) (inside : index < finiteCount) : Moderate (exact index) where
  significand := by
    rw [exact, Nat.pow_eq]
    exact few_digits_more _ 2000 _ (few_digits_mul 700 unitPlaces _ _ (units_few_digits index inside)
      (Nat.pow_le_pow_left (by decide) _)) (by decide)
  low := show -2000 ≤ -(unitPlaces : Int) by decide
  high := show -(unitPlaces : Int) ≤ 2000 by decide

theorem decade_moderate (index : Nat) (inside : index < finiteCount) :
    -400 ≤ decade index ∧ decade index ≤ 700 := by
  -- The shift gets a name, so that its power of ten is not written out.
  obtain ⟨shift, fixed⟩ : ∃ shift, shift = 400 := ⟨_, rfl⟩
  rw [decade, ← fixed]
  have scaled := few_digits_shift 700 shift _ (units_few_digits index inside)
  have length := few_digits_length _ _ (by omega) (few_digits_div _ _ unitsInOne scaled)
  omega

theorem on_grid_moderate (index : Nat) (inside : index < finiteCount) (exponent : Int) (d : Decimal)
    (low : -500 ≤ exponent) (high : exponent ≤ 700) (found : onGrid? index exponent = some d) :
    Moderate d := by
  obtain ⟨_, place, size⟩ := on_grid_outcome index exponent d found
  have scaled := few_digits_shift 700 (-exponent).toNat _ (units_few_digits index inside)
  have floored : FewDigits (700 + (-exponent).toNat) (floor index exponent).significand :=
    few_digits_div _ _ _ scaled
  have few := few_digits_of_le _ _ _ (few_digits_succ _ _ floored) size
  exact ⟨few_digits_more _ 2000 _ few (by omega), by omega, by omega⟩

theorem shortest_moderate (index : Nat) (inside : index < finiteCount) : Moderate (shortest index) := by
  obtain ⟨low, high⟩ := decade_moderate index inside
  rcases shortest_outcome index with ⟨_, zero⟩ | exact | ⟨places, few, grid⟩
  · rw [zero]
    exact ⟨few_digits_zero 2000, by decide, by decide⟩
  · rw [exact]
    exact exact_moderate index inside
  · exact on_grid_moderate index inside _ _ (by omega) (by omega) grid

theorem point_moderate (d : Decimal) (moderate : Moderate d) : (d.point - 1).natAbs < 1 <<< 16 := by
  obtain ⟨significand, low, high⟩ := moderate
  have length := few_digits_length 2000 _ (by decide) significand
  rw [point]
  omega

end Aggregation.Decimal
