import Mathlib
import Aggregation.Datum.Conversion
import Aggregation.Proofs.Binary64.Words
import Aggregation.Proofs.Datum.Reading
import Aggregation.Proofs.Text.Whole

set_option autoImplicit false

namespace Aggregation.Datum

open Binary64

def fitted (n : Int) : Except DatumError Int64 :=
  match Word.ofInt? n with
  | some word => .ok word
  | none => .error .overflow

theorem fitted_outside (n : Int) (outside : n < Word.least ∨ Word.greatest < n) :
    fitted n = .error .overflow := by
  rw [fitted, Word.of_int_outside n outside]

theorem fitted_signed (negative : Bool) (m : Nat) (large : 2 ^ 63 < m) :
    fitted (signed negative m) = .error .overflow := by
  apply fitted_outside
  rw [Word.least, Word.greatest]
  cases negative <;> simp only [signed_true, signed_false] <;> omega

section Ratio

variable (negative : Bool) (n m : Nat)

theorem word_nearest_ratio (rounded : units (indexOfRatio n 1) = m * unitsInOne) :
    wordNearest (ofRatio negative n 1) = fitted (signed negative m) := by
  rw [ofRatio, ofIndex]
  split
  next inside =>
    have unit : (unitsInOne : ℚ) ≠ 0 := Nat.cast_ne_zero.mpr units_in_one_pos.ne'
    have standing : (finite negative ⟨_, inside⟩).standing = .ofRat (signed negative m) := by
      rw [Binary64.standing, value_eq_units, rounded, signed_mul, Int.cast_mul, Int.cast_natCast,
        mul_div_cancel_right₀ _ unit]
    rw [wordNearest, round_whole _ _ standing, Option.bind_some]
    rfl
  next outside =>
    have top := units_strict_mono.monotone (Nat.not_lt.mp outside)
    have beyond := (units_strict_mono edge_inside).trans_le top
    rw [units_edge, rounded] at beyond
    rw [fitted_signed negative m (Nat.lt_of_mul_lt_mul_right beyond)]
    rfl

theorem word_nearest_past (large : 2 ^ 63 < units (indexOfRatio n 1) / unitsInOne) :
    wordNearest (ofRatio negative n 1) = .error .overflow := by
  have whole := (Nat.div_mul_cancel (rounded_whole_nat n)).symm
  rw [word_nearest_ratio negative n _ whole, fitted_signed negative _ large]

theorem word_nearest_far (far : 2 ^ 63 + 1024 < n) :
    wordNearest (ofRatio negative n 1) = .error .overflow := by
  apply word_nearest_past
  have past := Nat.div_le_div_right (c := unitsInOne) (past_edge_le_rounded n far)
  rw [Nat.mul_div_cancel _ units_in_one_pos] at past
  omega

theorem word_nearest_edge (large : 2 ^ 63 ≤ n) (near : n ≤ 2 ^ 63 + 1024) :
    wordNearest (ofRatio negative n 1) = fitted (signed negative (2 ^ 63)) :=
  word_nearest_ratio negative n _ (rounded_to_edge n (by omega) near)

theorem word_nearest_above (large : 2 ^ 63 ≤ n) : wordNearest (ofRatio false n 1) = .error .overflow := by
  by_cases near : n ≤ 2 ^ 63 + 1024
  · rw [word_nearest_edge false n large near]
    exact fitted_outside _ (.inr (by decide))
  · exact word_nearest_far false n (by omega)

end Ratio

section Text

variable (s : String) (numeral : Text.WholeNumeral) (written : Text.stripped s = numeral.chars)

include written

theorem to_integer_inside (word : Int64) (inside : Word.ofInt? numeral.value = some word) :
    (text s).toInteger = .ok word := by
  rw [toInteger, written, numeral.read_integer, Option.bind_some, inside]

theorem to_integer_outside (outside : Word.ofInt? numeral.value = none) :
    (text s).toInteger = wordNearest (.ofRatio numeral.negative numeral.magnitude 1) := by
  rw [toInteger, written, numeral.read_integer, Option.bind_some, outside, numeral.read_double]

end Text

/-- A text of a whole number, blanks around it aside, is read as the integer it denotes where that is a
word. Any other is refused, except that one at most 1024 below the least word is read as the least word. -/
theorem whole_text_read (s : String) (numeral : Text.WholeNumeral)
    (written : Text.stripped s = numeral.chars) :
    (text s).convert .integer = (text s).toInteger.map .integer ∧
      (Word.least ≤ numeral.value → numeral.value ≤ Word.greatest →
        ∃ word, (text s).toInteger = .ok word ∧ word.toInt = numeral.value) ∧
      (Word.greatest < numeral.value ∨ numeral.value < Word.least - 1024 →
        (text s).toInteger = .error .overflow) ∧
      (Word.least - 1024 ≤ numeral.value → numeral.value < Word.least →
        ∃ word, (text s).toInteger = .ok word ∧ word.toInt = Word.least) := by
  have least : Word.least = -2 ^ 63 := by decide
  have greatest : Word.greatest = 2 ^ 63 - 1 := by decide
  refine ⟨convert_integer _ Datum.noConfusion, fun low high => ?_, fun outside => ?_, fun near below => ?_⟩
  · obtain ⟨word, fits, exact_word⟩ := Word.of_int_inside numeral.value low high
    exact ⟨word, to_integer_inside s numeral written word fits, exact_word⟩
  · rw [to_integer_outside s numeral written (Word.of_int_outside _ (by omega))]
    rw [Text.WholeNumeral.value] at outside
    cases negative : numeral.negative <;> simp only [negative, signed_true, signed_false] at outside
    · exact word_nearest_above _ (by omega)
    · exact word_nearest_far true _ (by omega)
  · rw [to_integer_outside s numeral written (Word.of_int_outside _ (.inl below))]
    rw [Text.WholeNumeral.value] at near below
    cases negative : numeral.negative <;> simp only [negative, signed_true, signed_false] at near below
    · omega
    · obtain ⟨word, fits, exact_word⟩ := Word.of_int_inside Word.least (le_refl _) (by decide)
      refine ⟨word, ?_, exact_word⟩
      have same : signed true (2 ^ 63) = Word.least := by decide
      rw [word_nearest_edge true _ (by omega) (by omega), same, fitted, fits]

theorem whole_text_read_ends :
    let top : Text.WholeNumeral := ⟨some false, "009223372036854775807".toList, by simp, by simp⟩
    let low : Text.WholeNumeral := ⟨some true, "9223372036854776833".toList, by simp, by simp⟩
    Text.stripped "\t+009223372036854775807 " = top.chars ∧
      (∃ word, (text "\t+009223372036854775807 ").toInteger = .ok word ∧ word.toInt = top.value) ∧
      Text.stripped "-9223372036854776833" = low.chars ∧
      (text "-9223372036854776833").toInteger = .error .overflow := by
  intro top low
  have written : Text.stripped "\t+009223372036854775807 " = top.chars := by decide +kernel
  have lower : Text.stripped "-9223372036854776833" = low.chars := by decide +kernel
  have fits := (whole_text_read _ top written).2.1 (by decide +kernel) (by decide +kernel)
  have refused := (whole_text_read _ low lower).2.2.1 (.inr (by decide +kernel))
  exact ⟨written, fits, lower, refused⟩

theorem whole_text_below_least :
    let s := "-9223372036854775809"
    let numeral : Text.WholeNumeral := ⟨some true, "9223372036854775809".toList, by simp, by simp⟩
    Text.stripped s = numeral.chars ∧ numeral.value = Word.least - 1 ∧
      (text s).toInteger = .ok (-9223372036854775808) ∧
      ¬∀ word, (text s).toInteger = .ok word → word.toInt = numeral.value := by
  intro s numeral
  have value : numeral.value = Word.least - 1 := by decide +kernel
  have read : (text s).toInteger = .ok (-9223372036854775808) := by decide +kernel
  refine ⟨by decide +kernel, value, read, fun exact_word => ?_⟩
  have same := exact_word _ read
  rw [value] at same
  revert same
  decide

end Aggregation.Datum
