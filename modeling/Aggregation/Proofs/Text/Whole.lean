import Mathlib
import Aggregation.Decimal.Basic
import Aggregation.Proofs.Text.Numeral

set_option autoImplicit false

namespace Aggregation.Text

theorem digit_lower (c : Char) (digit : c.isDigit = true) : c.toLower = c := by
  have range := digit_range c digit
  apply Char.toLower_eq_of_not_isUpper
  intro upper
  have low : 65 ≤ c.toNat := (of_decide_eq_true upper).1
  omega

structure WholeNumeral where
  sign : Option Bool
  digits : List Char
  placed : digits ≠ []
  natural : ∀ c ∈ digits, c.isDigit = true

namespace WholeNumeral

def mark : Option Bool → List Char
  | none => []
  | some true => ['-']
  | some false => ['+']

def chars (numeral : WholeNumeral) : List Char :=
  mark numeral.sign ++ numeral.digits

def negative (numeral : WholeNumeral) : Bool :=
  numeral.sign.getD false

def magnitude (numeral : WholeNumeral) : Nat :=
  Nat.ofDigitChars 10 numeral.digits 0

def value (numeral : WholeNumeral) : Int :=
  signed numeral.negative numeral.magnitude

variable (numeral : WholeNumeral)

theorem split_sign : splitSign numeral.chars = (numeral.negative, numeral.digits) := by
  obtain ⟨sign, digits, placed, natural⟩ := numeral
  cases sign with
  | some negative => cases negative <;> rfl
  | none =>
      obtain ⟨c, rest, rfl⟩ := List.exists_cons_of_ne_nil placed
      have digit := natural c List.mem_cons_self
      exact split_sign_marked false c rest (fun same => by simp [same] at digit)
        (fun same => by simp [same] at digit)

theorem read_integer : readInteger? numeral.chars = some numeral.value := by
  have natural : isNatural numeral.digits = true := by
    rw [isNatural, List.isEmpty_eq_false_iff.mpr numeral.placed]
    exact List.all_eq_true.mpr numeral.natural
  rw [readInteger?, numeral.split_sign]
  simp only [natural, if_true, value, magnitude]

theorem read_decimal : readDecimal? numeral.digits = some ⟨numeral.magnitude, 0⟩ := by
  have whole : numeral.digits.takeWhile Char.isDigit = numeral.digits :=
    List.takeWhile_eq_self_iff.mpr numeral.natural
  have behind : numeral.digits.dropWhile Char.isDigit = [] :=
    List.dropWhile_eq_nil_iff.mpr numeral.natural
  rw [readDecimal?, whole, behind, List.isEmpty_eq_false_iff.mpr numeral.placed, magnitude]
  simp [splitFraction, readExponent?]

theorem unnamed (name : String) (wordy : ∀ c ∈ name.toList, c.isDigit = false) :
    String.ofList (numeral.digits.map Char.toLower) ≠ name := by
  intro same
  obtain ⟨c, inside⟩ := List.exists_mem_of_ne_nil _ numeral.placed
  have digit := numeral.natural c inside
  have word := wordy c.toLower (by
    rw [← same, String.toList_ofList]
    exact List.mem_map_of_mem inside)
  rw [digit_lower c digit, digit] at word
  cases word

theorem read_double :
    readDouble? numeral.chars = some (.ofRatio numeral.negative numeral.magnitude 1) := by
  simp only [readDouble?, numeral.split_sign, numeral.unnamed "nan" (by simp),
    numeral.unnamed "inf" (by simp), numeral.unnamed "infinity" (by simp), if_false, decide_false,
    Bool.or_false, Bool.false_eq_true, numeral.read_decimal, Option.map_some]
  simp [Binary64.ofDecimal, Decimal.numerator, Decimal.denominator]

end WholeNumeral

end Aggregation.Text
