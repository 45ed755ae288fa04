import Mathlib
import Aggregation.Text.Blank

set_option autoImplicit false

namespace Aggregation.Text

def SameLetter (c d : Char) : Prop :=
  c = d ∨ (c.isUpper ∧ d.toNat = c.toNat + 32) ∨ d.isUpper ∧ c.toNat = d.toNat + 32

theorem is_upper_iff (c : Char) : c.isUpper = true ↔ 65 ≤ c.toNat ∧ c.toNat ≤ 90 := by
  simp [Char.isUpper, UInt32.le_iff_toNat_le]

theorem is_lower_iff (c : Char) : c.isLower = true ↔ 97 ≤ c.toNat ∧ c.toNat ≤ 122 := by
  simp [Char.isLower, UInt32.le_iff_toNat_le]

theorem upper_place (c : Char) :
    c.toUpper.toNat = if 97 ≤ c.toNat ∧ c.toNat ≤ 122 then c.toNat - 32 else c.toNat := by
  by_cases lower : c.isLower = true
  · have range := (is_lower_iff c).mp lower
    have valid : (c.toNat - 32).isValidChar := .inl (by omega)
    rw [Char.toUpper_eq_of_isLower lower, Char.toNat_ofNat, if_pos valid, if_pos range]
  · rw [Char.toUpper_eq_of_not_isLower lower, if_neg (mt (is_lower_iff c).mpr lower)]

theorem same_letter_iff (c d : Char) : SameLetter c d ↔ c.toUpper = d.toUpper := by
  rw [SameLetter, ← Char.toNat_inj, ← Char.toNat_inj, is_upper_iff, is_upper_iff, upper_place, upper_place]
  split <;> split <;> omega

theorem same_letters_iff (word other : List Char) :
    List.Forall₂ SameLetter word other ↔ word.map Char.toUpper = other.map Char.toUpper := by
  have same : SameLetter = fun c d => c.toUpper = d.toUpper := by
    funext c d
    exact propext (same_letter_iff c d)
  rw [same, ← List.forall₂_eq_eq_eq, List.forall₂_map_left_iff, List.forall₂_map_right_iff]

theorem printing_solid (c : Char) (low : 0x21 ≤ c.toNat) (high : c.toNat ≤ 0x7e) : isBlank c = false := by
  simp only [isBlank, blankRanges, List.any_cons, List.any_nil, Bool.or_eq_false_iff,
    Bool.and_eq_false_iff, decide_eq_false_iff_not, Nat.not_le, and_true]
  omega

theorem same_letter_solid (c d : Char) (same : SameLetter c d) (solid : isBlank d = false) :
    isBlank c = false := by
  rw [SameLetter, is_upper_iff, is_upper_iff] at same
  rcases same with rfl | letters | letters
  · exact solid
  · exact printing_solid c (by omega) (by omega)
  · exact printing_solid c (by omega) (by omega)

theorem stripped_parts (text : String) : ∃ before after, text.toList = before ++ stripped text ++ after ∧
    (∀ c ∈ before, isBlank c = true) ∧ ∀ c ∈ after, isBlank c = true := by
  generalize rest : text.toList.dropWhile isBlank = chars
  refine ⟨text.toList.takeWhile isBlank, (chars.reverse.takeWhile isBlank).reverse, ?_, ?_, ?_⟩
  · have ends : chars = stripped text ++ (chars.reverse.takeWhile isBlank).reverse := by
      rw [stripped, rest, ← List.reverse_append, List.takeWhile_append_dropWhile, List.reverse_reverse]
    rw [List.append_assoc, ← ends, ← rest, List.takeWhile_append_dropWhile]
  · exact fun c inside => List.mem_takeWhile_imp inside
  · exact fun c inside => List.mem_takeWhile_imp (List.mem_reverse.mp inside)

theorem drop_blanks (before word : List Char) (blank : ∀ c ∈ before, isBlank c = true)
    (solid : ∀ c ∈ word, isBlank c = false) : (before ++ word).dropWhile isBlank = word := by
  rw [List.dropWhile_append_of_pos blank, List.dropWhile_eq_self_iff]
  intro inside
  simp [solid _ (List.getElem_mem inside)]

theorem stripped_of_parts (text : String) (before word after : List Char)
    (split : text.toList = before ++ word ++ after) (first : ∀ c ∈ before, isBlank c = true)
    (last : ∀ c ∈ after, isBlank c = true) (solid : ∀ c ∈ word, isBlank c = false) : stripped text = word := by
  rw [stripped, split, List.append_assoc, List.dropWhile_append_of_pos first]
  cases word with
  | nil =>
      rw [List.nil_append, List.dropWhile_eq_nil_iff.mpr last]
      rfl
  | cons c rest =>
      have visible : ¬isBlank c = true := by
        rw [solid c List.mem_cons_self]
        exact Bool.false_ne_true
      have behind := drop_blanks after.reverse (c :: rest).reverse
        (fun d inside => last d (List.mem_reverse.mp inside)) fun d inside => solid d (List.mem_reverse.mp inside)
      rw [List.cons_append, List.dropWhile_cons_of_neg visible, ← List.cons_append, List.reverse_append, behind,
        List.reverse_reverse]

end Aggregation.Text
