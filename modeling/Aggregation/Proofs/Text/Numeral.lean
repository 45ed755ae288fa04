import Mathlib
import Aggregation.Text.Numeral
import Aggregation.Proofs.Text.Casing

set_option autoImplicit false

namespace Aggregation.Text

def signMark (negative : Bool) : List Char :=
  if negative then ['-'] else []

theorem integer_text (n : Int) :
    (toString n).toList = signMark (n < 0) ++ Nat.toDigits 10 n.natAbs := by
  rw [Int.toString_eq_repr, Int.repr_eq_if]
  by_cases negative : n < 0
  · rw [if_neg (by omega), String.toList_append, Nat.toList_repr, signMark, decide_eq_true negative,
      if_pos rfl, show (-n).toNat = n.natAbs by omega]
    rfl
  · rw [if_pos (by omega), Nat.toList_repr, signMark, decide_eq_false negative,
      show n.toNat = n.natAbs by omega]
    rfl

theorem digit_range (c : Char) (digit : c.isDigit = true) : 48 ≤ c.toNat ∧ c.toNat ≤ 57 := by
  rw [Char.isDigit, Bool.and_eq_true, decide_eq_true_iff, decide_eq_true_iff] at digit
  exact digit

theorem digit_solid (c : Char) (digit : c.isDigit = true) : isBlank c = false := by
  have range := digit_range c digit
  exact printing_solid c (by omega) (by omega)

theorem stripped_solid (text : String) (solid : ∀ c ∈ text.toList, isBlank c = false) :
    stripped text = text.toList :=
  stripped_of_parts text [] text.toList [] (List.append_nil _).symm (fun _ inside => absurd inside List.not_mem_nil)
    (fun _ inside => absurd inside List.not_mem_nil) solid

theorem sign_mark_solid (negative : Bool) (c : Char) (inside : c ∈ signMark negative) :
    isBlank c = false := by
  cases negative with
  | true =>
      rw [List.mem_singleton.mp inside]
      decide
  | false => cases inside

theorem integer_solid (n : Int) (c : Char) (inside : c ∈ (toString n).toList) : isBlank c = false := by
  rw [integer_text] at inside
  rcases List.mem_append.mp inside with mark | digit
  · exact sign_mark_solid _ c mark
  · exact digit_solid c (Nat.isDigit_of_mem_toDigits (by decide) (le_refl 10) digit)

theorem split_sign_marked (negative : Bool) (c : Char) (rest : List Char) (minus : c ≠ '-')
    (plus : c ≠ '+') : splitSign (signMark negative ++ c :: rest) = (negative, c :: rest) := by
  cases negative with
  | true => rfl
  | false => exact splitSign.eq_3 (c :: rest) (by simpa using minus) (by simpa using plus)

theorem split_sign_digits (negative : Bool) (n : Nat) :
    splitSign (signMark negative ++ Nat.toDigits 10 n) = (negative, Nat.toDigits 10 n) := by
  have digits (c : Char) (inside : c ∈ Nat.toDigits 10 n) : c.isDigit = true :=
    Nat.isDigit_of_mem_toDigits (by decide) (le_refl 10) inside
  cases written : Nat.toDigits 10 n with
  | nil => exact absurd written Nat.toDigits_ne_nil
  | cons c rest =>
      have digit := digits c (written ▸ List.mem_cons_self)
      exact split_sign_marked negative c rest (fun same => by simp [same] at digit)
        (fun same => by simp [same] at digit)

theorem is_natural_digits (n : Nat) : isNatural (Nat.toDigits 10 n) = true := by
  rw [isNatural, Bool.and_eq_true, Bool.not_eq_true', List.isEmpty_eq_false_iff, List.all_eq_true]
  exact ⟨Nat.toDigits_ne_nil, fun c inside =>
    Nat.isDigit_of_mem_toDigits (by decide) (le_refl 10) inside⟩

theorem read_integer_text (n : Int) : readInteger? (toString n).toList = some n := by
  rw [integer_text, readInteger?, split_sign_digits]
  simp only [is_natural_digits, if_true, Nat.ofDigitChars_ten_toDigits, signed_nat_abs]

theorem of_digit_chars_grows (digits : List Char) (start : Nat) :
    start ≤ Nat.ofDigitChars 10 digits start := by
  induction digits generalizing start with
  | nil => exact le_refl start
  | cons c digits ih =>
      rw [Nat.ofDigitChars_cons]
      have grows := ih (10 * start + (c.toNat - '0'.toNat))
      omega

-- No prefix of the digits denotes more than all of them, so none is dropped.
theorem exponent_of_small (digits : List Char) (small : Nat.ofDigitChars 10 digits 0 < 1 <<< 16) :
    exponentOf digits = Nat.ofDigitChars 10 digits 0 := by
  rw [exponentOf]
  generalize 0 = start at small ⊢
  induction digits generalizing start with
  | nil => rfl
  | cons c digits ih =>
      have grows := of_digit_chars_grows (c :: digits) start
      rw [Nat.ofDigitChars_cons] at small grows ⊢
      rw [List.foldl_cons, if_pos (by omega), ih _ small]

theorem read_exponent_text (n : Int) (small : n.natAbs < 1 <<< 16) :
    readExponent? ('E' :: (toString n).toList) = some n := by
  have exponent := exponent_of_small (Nat.toDigits 10 n.natAbs) (by rwa [Nat.ofDigitChars_ten_toDigits])
  rw [integer_text, readExponent?, split_sign_digits]
  simp [is_natural_digits, exponent, signed_nat_abs]

structure PointNumeral where
  whole : List Char
  places : List Char
  exponent : Option Int
  digits : ∀ c ∈ whole ++ places, c.isDigit = true
  placed : places ≠ []
  small : ∀ n ∈ exponent, n.natAbs < 1 <<< 16

namespace PointNumeral

def scale : Option Int → List Char
  | none => []
  | some n => 'E' :: (toString n).toList

def chars (p : PointNumeral) : List Char :=
  p.whole ++ '.' :: (p.places ++ scale p.exponent)

def decimal (p : PointNumeral) : Decimal :=
  ⟨Nat.ofDigitChars 10 (p.whole ++ p.places) 0, p.exponent.getD 0 - p.places.length⟩

variable (p : PointNumeral)

theorem whole_digits (c : Char) (inside : c ∈ p.whole) : c.isDigit = true :=
  p.digits c (List.mem_append_left _ inside)

theorem places_digits (c : Char) (inside : c ∈ p.places) : c.isDigit = true :=
  p.digits c (List.mem_append_right _ inside)

theorem read_scale : readExponent? (scale p.exponent) = some (p.exponent.getD 0) := by
  cases written : p.exponent with
  | none => rfl
  | some n => exact read_exponent_text n (p.small n written)

theorem split_places : (p.places ++ scale p.exponent).takeWhile Char.isDigit = p.places ∧
    (p.places ++ scale p.exponent).dropWhile Char.isDigit = scale p.exponent := by
  rw [List.takeWhile_append_of_pos p.places_digits, List.dropWhile_append_of_pos p.places_digits]
  cases p.exponent with
  | none => exact ⟨List.append_nil _, rfl⟩
  | some n => exact ⟨List.append_nil _, rfl⟩

theorem read_decimal : readDecimal? p.chars = some p.decimal := by
  obtain ⟨places, rest⟩ := p.split_places
  have whole : p.chars.takeWhile Char.isDigit = p.whole := by
    rw [chars, List.takeWhile_append_of_pos p.whole_digits]
    exact List.append_nil _
  have behind : p.chars.dropWhile Char.isDigit = '.' :: (p.places ++ scale p.exponent) := by
    rw [chars, List.dropWhile_append_of_pos p.whole_digits]
    rfl
  have placed : p.places.isEmpty = false := List.isEmpty_eq_false_iff.mpr p.placed
  simp only [readDecimal?, whole, behind, splitFraction, places, rest, placed, Bool.and_false,
    Bool.false_eq_true, if_false, p.read_scale, Option.map_some, decimal]

theorem split_sign (negative : Bool) :
    splitSign (signMark negative ++ p.chars) = (negative, p.chars) := by
  rw [chars]
  cases whole : p.whole with
  | nil => exact split_sign_marked negative '.' _ (by decide) (by decide)
  | cons c rest =>
      have digit := p.whole_digits c (whole ▸ List.mem_cons_self)
      exact split_sign_marked negative c _ (fun same => by simp [same] at digit)
        (fun same => by simp [same] at digit)

theorem unnamed (name : String) (pointless : '.' ∉ name.toList) :
    String.ofList (p.chars.map Char.toLower) ≠ name := by
  intro same
  apply pointless
  rw [← same, String.toList_ofList]
  exact List.mem_map.mpr ⟨'.', by simp [chars], rfl⟩

theorem read_double (negative : Bool) :
    readDouble? (signMark negative ++ p.chars) = some (.ofDecimal negative p.decimal) := by
  simp only [readDouble?, p.split_sign, p.unnamed "nan" (by decide), p.unnamed "inf" (by decide),
    p.unnamed "infinity" (by decide), if_false, decide_false, Bool.or_false, Bool.false_eq_true,
    p.read_decimal, Option.map_some]

theorem solid (c : Char) (inside : c ∈ p.chars) : isBlank c = false := by
  simp only [chars, List.mem_append, List.mem_cons] at inside
  rcases inside with whole | rfl | places | scaled
  · exact digit_solid c (p.whole_digits c whole)
  · decide
  · exact digit_solid c (p.places_digits c places)
  · cases written : p.exponent with
    | none => simp [written, scale] at scaled
    | some n =>
        rw [written] at scaled
        rcases List.mem_cons.mp scaled with rfl | digit
        · decide
        · exact integer_solid n c digit

end PointNumeral

end Aggregation.Text
