import Mathlib
import Aggregation.Proofs.Datum.Reading
import Aggregation.Proofs.Decimal.Figures
import Aggregation.Proofs.Text.Numeral

set_option autoImplicit false

namespace Aggregation

namespace Layout

open Decimal Text

def orZero (places : List Char) : List Char :=
  if places.isEmpty then ['0'] else places

theorem or_zero_empty : orZero [] = ['0'] := rfl

theorem or_zero_some (places : List Char) (nonempty : places ≠ []) : orZero places = places := by
  rw [orZero, List.isEmpty_eq_false_iff.mpr nonempty]
  rfl

theorem or_zero_placed (places : List Char) : orZero places ≠ [] := by
  by_cases empty : places = []
  · rw [empty, or_zero_empty]
    exact List.cons_ne_nil _ _
  · rwa [or_zero_some places empty]

theorem or_zero_digits (whole places : List Char) (digits : ∀ c ∈ whole ++ places, c.isDigit = true)
    (c : Char) (inside : c ∈ whole ++ orZero places) : c.isDigit = true := by
  by_cases empty : places = []
  · subst empty
    rcases List.mem_append.mp inside with left | zero
    · exact digits c (List.mem_append_left _ left)
    · rw [List.mem_singleton.mp zero]
      decide
  · rw [or_zero_some places empty] at inside
    exact digits c inside

theorem value_or_zero (whole places : List Char) (exponent : Int) :
    value ⟨Nat.ofDigitChars 10 (whole ++ orZero places) 0, exponent - (orZero places).length⟩ =
      value ⟨Nat.ofDigitChars 10 (whole ++ places) 0, exponent - places.length⟩ := by
  by_cases empty : places = []
  · subst empty
    have zeros := of_digit_chars_zeros whole 1
    have scaled := value_scaled (Nat.ofDigitChars 10 whole 0) 1 (exponent - 1)
    rw [← zeros, Nat.cast_one, Int.sub_add_cancel] at scaled
    rw [or_zero_empty, List.append_nil]
    simpa only [List.length_nil, List.length_singleton, List.replicate_one, Nat.cast_zero, Nat.cast_one,
      Int.sub_zero] using scaled
  · rw [or_zero_some places empty]

section Pointed

variable (whole places : List Char) (exponent : Option Int)
  (digits : ∀ c ∈ whole ++ places, c.isDigit = true) (small : ∀ n ∈ exponent, n.natAbs < 1 <<< 16)

def pointed : PointNumeral where
  whole := whole
  places := orZero places
  exponent := exponent
  digits := or_zero_digits whole places digits
  placed := or_zero_placed places
  small := small

theorem pointed_chars : (pointed whole places exponent digits small).chars =
    whole ++ '.' :: (orZero places ++ PointNumeral.scale exponent) := rfl

theorem pointed_value : (pointed whole places exponent digits small).decimal.value =
    value ⟨Nat.ofDigitChars 10 (whole ++ places) 0, exponent.getD 0 - places.length⟩ :=
  value_or_zero whole places (exponent.getD 0)

end Pointed

theorem whole_fraction_digits (d : Decimal) (c : Char) (inside : c ∈ whole d ++ fraction d) :
    c.isDigit = true := by
  have zeros (n : Nat) (inside : c ∈ List.replicate n '0') : c.isDigit = true := by
    rw [(List.mem_replicate.mp inside).2]
    decide
  have figures := d.figures_digits c
  rw [whole, fraction] at inside
  split at inside
  · simp only [List.mem_append, List.mem_singleton] at inside
    rcases inside with rfl | zero | figure
    · decide
    · exact zeros _ zero
    · exact figures figure
  · simp only [List.mem_append] at inside
    rcases inside with (taken | zero) | dropped
    · exact figures (List.mem_of_mem_take taken)
    · exact zeros _ zero
    · exact figures (List.mem_of_mem_drop dropped)

theorem value_around_point (d : Decimal) :
    value ⟨Nat.ofDigitChars 10 (whole d ++ fraction d) 0, 0 - (fraction d).length⟩ = d.value := by
  rw [← value_of_figures d, whole, fraction]
  split
  · rw [List.singleton_append, ← List.cons_append, ← List.replicate_succ, Nat.ofDigitChars_append,
      Nat.ofDigitChars_replicate_zero, Nat.mul_zero, List.length_append, List.length_replicate]
    congr 2
    omega
  · have digits : d.figures.take d.point.toNat ++ List.replicate (d.point.toNat - d.figures.length) '0' ++
        d.figures.drop d.point.toNat =
        d.figures ++ List.replicate (d.point.toNat - d.figures.length) '0' := by
      by_cases short : d.figures.length ≤ d.point.toNat
      · rw [List.drop_of_length_le short, List.take_of_length_le short, List.append_nil]
      · rw [show d.point.toNat - d.figures.length = 0 by omega, List.replicate_zero, List.append_nil,
          List.append_nil, List.take_append_drop]
    rw [digits, of_digit_chars_zeros, value_scaled, List.length_drop]
    congr 2
    omega

theorem without_exponent_kept (layout : Layout) (keeps : layout.keepsPoint = true) (d : Decimal) :
    layout.withoutExponent d = whole d ++ '.' :: orZero (fraction d) := by
  rw [withoutExponent, keeps, if_pos rfl]
  cases fraction d with
  | nil => rfl
  | cons c rest => rw [or_zero_some _ (List.cons_ne_nil c rest)]

theorem without_exponent_pointed (layout : Layout) (keeps : layout.keepsPoint = true) (d : Decimal) :
    ∃ p : PointNumeral, layout.withoutExponent d = p.chars ∧ p.decimal.value = d.value := by
  refine ⟨pointed (whole d) (fraction d) none (whole_fraction_digits d) (by simp), ?_, ?_⟩
  · rw [without_exponent_kept layout keeps, pointed_chars, PointNumeral.scale, List.append_nil]
  · rw [pointed_value, ← value_around_point d]
    rfl

theorem with_exponent_pointed (d : Decimal) (small : (d.point - 1).natAbs < 1 <<< 16) :
    ∃ p : PointNumeral, withExponent d = p.chars ∧ p.decimal.value = d.value := by
  have digits : ∀ c ∈ d.figures.take 1 ++ d.figures.drop 1, c.isDigit = true := by
    rw [List.take_append_drop]
    exact d.figures_digits
  refine ⟨pointed (d.figures.take 1) (d.figures.drop 1) (some (d.point - 1)) digits
    (by simpa using small), ?_, ?_⟩
  · rw [withExponent, pointed_chars, List.append_assoc, List.cons_append]
    rfl
  · rw [pointed_value, ← value_of_figures d, List.take_append_drop, List.length_drop]
    cases d.figures with
    | nil => simp [value]
    | cons c rest =>
        congr 2
        simp only [List.length_cons, Option.getD_some]
        omega

theorem magnitude_pointed (layout : Layout) (keeps : layout.keepsPoint = true) (d : Decimal)
    (small : (d.point - 1).natAbs < 1 <<< 16) :
    ∃ p : PointNumeral, layout.magnitude d = p.chars ∧ p.decimal.value = d.value := by
  rw [magnitude]
  split
  · exact without_exponent_pointed layout keeps d
  · exact with_exponent_pointed d small

theorem read_finite (layout : Layout) (keeps : layout.keepsPoint = true) (negative : Bool)
    (index : Fin Binary64.finiteCount) :
    readDouble? (stripped (layout.render (.finite negative index))) = some (.finite negative index) := by
  have moderate := shortest_moderate index.val index.isLt
  obtain ⟨p, written, value⟩ :=
    magnitude_pointed layout keeps (shortest index.val) (point_moderate _ moderate)
  have chars : (layout.render (.finite negative index)).toList = signMark negative ++ p.chars := by
    rw [render, written, String.toList_ofList]
    rfl
  have solid : ∀ c ∈ (layout.render (.finite negative index)).toList, isBlank c = false := by
    rw [chars]
    intro c inside
    rcases List.mem_append.mp inside with mark | digit
    · exact sign_mark_solid negative c mark
    · exact p.solid c digit
  rw [stripped_solid _ solid, chars, p.read_double, of_shortest index negative p.decimal value]

end Layout

namespace Datum

theorem read_boolean (b : Bool) : (Datum.text (boolean b).toText).convert .boolean = .ok (.boolean b) := by
  cases b <;> rfl

theorem read_integer (n : Int64) :
    (Datum.text (integer n).toText).convert .integer = .ok (.integer n) := by
  have read : (Datum.text (integer n).toText).toInteger = .ok n := by
    rw [toInteger, toText, Text.stripped_solid _ (Text.integer_solid n.toInt), Text.read_integer_text,
      Option.bind_some, Word.of_int_word]
  rw [convert_integer _ (by simp), read]
  rfl

theorem read_double (x : Binary64) : (Datum.text (double x).toText).convert .double = .ok (.double x) := by
  have read : Text.readDouble? (Text.stripped (Layout.plain.render x)) = some x := by
    cases x with
    | nan => decide +kernel
    | infinity negative => cases negative <;> decide +kernel
    | finite negative index => exact Layout.read_finite Layout.plain rfl negative index
  rw [convert_double _ (by simp), toDouble, toText, read]
  rfl

/-- Every value other than NULL is written as a text that is read as that value again, a double with its sign and
infinity included. -/
theorem text_round_trip (v : Datum) (present : v ≠ .null) :
    ∃ type s, v.type? = some type ∧ v.convert .text = .ok (.text s) ∧
      (Datum.text s).convert type = .ok v := by
  cases v with
  | null => exact absurd rfl present
  | boolean b => exact ⟨.boolean, _, rfl, rfl, read_boolean b⟩
  | integer n => exact ⟨.integer, _, rfl, rfl, read_integer n⟩
  | double x => exact ⟨.double, _, rfl, rfl, read_double x⟩
  | text s => exact ⟨.text, s, rfl, rfl, rfl⟩

theorem text_round_trip_double :
    let v := Datum.double (.ofBits 0xbff0000000000001)
    v ≠ .null ∧ v.toText = "-1.0000000000000002" ∧
      ∃ type s, v.type? = some type ∧ v.convert .text = .ok (.text s) ∧
        (Datum.text s).convert type = .ok v := by
  intro v
  have present : v ≠ .null := by simp [v]
  exact ⟨present, by decide +kernel, text_round_trip v present⟩

end Datum

end Aggregation
