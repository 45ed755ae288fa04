import Mathlib
import Aggregation.Datum.Conversion
import Aggregation.Proofs.Datum.Ascending

set_option autoImplicit false

namespace Aggregation

namespace Binary64

theorem finite_of_whole (x : Binary64) (n : Int) (same : x.standing = .ofRat n) :
    ∃ negative index, x = .finite negative index ∧
      units index.val = n.natAbs * unitsInOne ∧ signed negative n.natAbs = n := by
  obtain ⟨negative, index, rfl, value_eq⟩ := finite_of_standing x n same
  have unit : (unitsInOne : ℚ) ≠ 0 := Nat.cast_ne_zero.mpr units_in_one_pos.ne'
  rw [value_eq_units, eq_div_iff unit] at value_eq
  have place : signed negative (units index.val) = n * unitsInOne := by exact_mod_cast value_eq.symm
  have size : units index.val = n.natAbs * unitsInOne := by
    rw [← nat_abs_signed negative (units index.val), place, Int.natAbs_mul, Int.natAbs_natCast]
  refine ⟨negative, index, rfl, size, ?_⟩
  rw [size, signed_mul] at place
  exact Int.eq_of_mul_eq_mul_right (Nat.cast_ne_zero.mpr units_in_one_pos.ne') place

theorem round_whole (x : Binary64) (n : Int) (same : x.standing = .ofRat n) : x.round? = some n := by
  obtain ⟨negative, index, rfl, size, restored⟩ := finite_of_whole x n same
  have half : unitsInOne / (2 * unitsInOne) = 0 := Nat.div_eq_of_lt (by have := units_in_one_pos; omega)
  have nearest : (2 * units index.val + unitsInOne) / (2 * unitsInOne) = n.natAbs := by
    rw [size, Nat.mul_left_comm, Nat.mul_comm n.natAbs, Nat.mul_add_div (by have := units_in_one_pos; omega),
      half, Nat.add_zero]
  rw [round?, nearest, restored]

theorem is_zero_whole (x : Binary64) (n : Int) (same : x.standing = .ofRat n) :
    x.isZero = (n == 0) := by
  obtain ⟨negative, index, rfl, size, restored⟩ := finite_of_whole x n same
  have zeros : index.val = 0 ↔ n = 0 := by
    rw [← units_strict_mono.injective.eq_iff, units_zero, size, Nat.mul_eq_zero, Int.natAbs_eq_zero,
      or_iff_left units_in_one_pos.ne']
  rw [isZero, Bool.eq_iff_iff, beq_iff_eq, beq_iff_eq, zeros]

theorem signed_inj (left right : Bool) (m n : Nat) (same : signed left m = signed right n) :
    m = n ∧ (left = right ∨ m = 0) := by
  have size : m = n := by rw [← nat_abs_signed left m, same, nat_abs_signed]
  refine ⟨size, ?_⟩
  cases left <;> cases right <;> simp only [signed_true, signed_false] at same
  · exact .inl rfl
  · exact .inr (by omega)
  · exact .inr (by omega)
  · exact .inl rfl

theorem infinite_inj (left right : Bool) (same : Standing.infinite left = Standing.infinite right) :
    left = right := by
  have apart := (Standing.infinite_lt_rat 0).trans (Standing.rat_lt_infinite 0)
  cases left <;> cases right
  · rfl
  · exact absurd same apart.ne'
  · exact absurd same apart.ne
  · rfl

theorem value_inj (left right : Bool) (i j : Fin finiteCount) (same : value left i = value right j) :
    finite left i = finite right j ∨ i.val = 0 ∧ j.val = 0 := by
  have unit : (unitsInOne : ℚ) ≠ 0 := Nat.cast_ne_zero.mpr units_in_one_pos.ne'
  rw [value_eq_units, value_eq_units, div_left_inj' unit, Int.cast_inj] at same
  obtain ⟨size, sign⟩ := signed_inj left right _ _ same
  have index := Fin.ext (units_strict_mono.injective size)
  rcases sign with rfl | zero
  · exact .inl (index ▸ rfl)
  · have first : i.val = 0 := units_strict_mono.injective (zero.trans units_zero.symm)
    exact .inr ⟨first, index ▸ first⟩

theorem standing_inj (x y : Binary64) (same : x.standing = y.standing) :
    x = y ∨ x.isZero = true ∧ y.isZero = true := by
  cases x with
  | nan =>
      cases y with
      | nan => exact .inl rfl
      | infinity other => cases other <;> cases same
      | finite other j => cases same
  | infinity negative =>
      cases y with
      | nan => cases negative <;> cases same
      | infinity other => exact .inl (congrArg infinity (infinite_inj negative other same))
      | finite other j => cases negative <;> cases same
  | finite negative i =>
      cases y with
      | nan => cases same
      | infinity other => cases other <;> cases same
      | finite other j =>
          rcases value_inj negative other i j (Standing.of_rat_strict_mono.injective same) with
            equal | ⟨first, second⟩
          · exact .inl equal
          · exact .inr ⟨beq_iff_eq.mpr first, beq_iff_eq.mpr second⟩

theorem of_int_standing (n : Int64) (x : Binary64) (same : x.standing = .ofRat n.toInt) :
    (ofInt n.toInt).compare x = .eq := by
  obtain ⟨negative, index, rfl, size, restored⟩ := finite_of_whole x n.toInt same
  have place : (finite negative index).place? = some (n.toInt * unitsInOne) := by
    rw [place?, size, signed_mul, restored]
  have rounded := le_antisymm (rounded_le n.toInt _ _ place le_rfl) (le_rounded n.toInt _ _ place le_rfl)
  rw [compare, place_of_int, place, rounded]
  exact compare_eq_iff_eq.mpr rfl

end Binary64

namespace Datum

inductive Twins : Datum → Datum → Prop where
  | same (a : Datum) : Twins a a
  | zeros (x y : Binary64) (left : x.isZero = true) (right : y.isZero = true) :
      Twins (.double x) (.double y)
  | whole (n : Int64) (x : Binary64) (standing : x.standing = .ofRat n.toInt) :
      Twins (.integer n) (.double x)
  | restored (x : Binary64) (n : Int64) (standing : x.standing = .ofRat n.toInt) :
      Twins (.double x) (.integer n)

theorem number_twins (a b : Datum) (s t : Standing) (left : a.standing? = some s)
    (right : b.standing? = some t) (same : s = t) : Twins a b := by
  cases a <;> cases left <;> cases b <;> cases right
  case integer.refl.integer.refl n m =>
    have equal := Int.cast_injective (Standing.of_rat_strict_mono.injective same)
    exact Int64.toInt_inj.mp equal ▸ .same _
  case integer.refl.double.refl n x => exact .whole n x same.symm
  case double.refl.integer.refl x n => exact .restored x n same
  case double.refl.double.refl x y =>
    rcases Binary64.standing_inj x y same with rfl | ⟨left, right⟩
    · exact .same _
    · exact .zeros x y left right

theorem alike_twins (a b : Datum) (alike : a.Alike b) : Twins a b := by
  have number (s t : Standing) (left : a.standing? = some s) (right : b.standing? = some t) :
      Twins a b := by
    refine number_twins a b s t left right ?_
    rw [Alike, compare_standing a b s t left right, Except.ok.injEq, cmp_eq_eq_iff] at alike
    exact alike
  have family := family_of_alike a b alike
  cases a <;> cases b <;> cases family
  case null.null => exact .same _
  case boolean.boolean b c =>
    rw [Alike, compare, Except.ok.injEq, compare_eq_iff_eq] at alike
    exact alike ▸ .same _
  case text.text s t =>
    rw [Alike, compare, Except.ok.injEq, compare_eq_iff_eq] at alike
    exact alike ▸ .same _
  all_goals exact number _ _ rfl rfl

theorem word_nearest_whole (n : Int64) (x : Binary64) (standing : x.standing = .ofRat n.toInt) :
    wordNearest x = .ok n := by
  rw [wordNearest, Binary64.round_whole x n.toInt standing, Option.bind_some, Word.of_int_word]

theorem to_integer_alike (a b : Datum) (alike : a.Alike b) : a.toInteger = b.toInteger := by
  cases alike_twins a b alike with
  | same => rfl
  | zeros x y left right =>
      rw [toInteger, toInteger, word_nearest_whole 0 x (Binary64.is_zero_standing x left),
        word_nearest_whole 0 y (Binary64.is_zero_standing y right)]
  | whole n x standing => rw [toInteger, toInteger, word_nearest_whole n x standing]
  | restored x n standing => rw [toInteger, toInteger, word_nearest_whole n x standing]

theorem to_boolean_whole (n : Int64) (x : Binary64) (standing : x.standing = .ofRat n.toInt) :
    (!x.isZero) = (n != 0) := by
  rw [Binary64.is_zero_whole x n.toInt standing, bne, Bool.not_inj_iff, Bool.eq_iff_iff, beq_iff_eq,
    beq_iff_eq, ← Int64.toInt_inj]
  rfl

theorem to_boolean_alike (a b : Datum) (alike : a.Alike b) : a.toBoolean = b.toBoolean := by
  cases alike_twins a b alike with
  | same => rfl
  | zeros x y left right => rw [toBoolean, toBoolean, left, right]
  | whole n x standing => rw [toBoolean, toBoolean, to_boolean_whole n x standing]
  | restored x n standing => rw [toBoolean, toBoolean, to_boolean_whole n x standing]

theorem to_double_alike (a b : Datum) (alike : a.Alike b) :
    a.toDouble = b.toDouble ∨
      ∃ x y, a.toDouble = .ok x ∧ b.toDouble = .ok y ∧ x.compare y = .eq := by
  cases alike_twins a b alike with
  | same => exact .inl rfl
  | zeros x y left right =>
      rw [Alike, compare, Except.ok.injEq] at alike
      exact .inr ⟨x, y, rfl, rfl, alike⟩
  | whole n x standing => exact .inr ⟨_, x, rfl, rfl, Binary64.of_int_standing n x standing⟩
  | restored x n standing =>
      refine .inr ⟨x, _, rfl, rfl, ?_⟩
      have equal := Binary64.of_int_standing n x standing
      rw [Binary64.compare_eq_standing, cmp_eq_eq_iff] at equal ⊢
      exact equal.symm

section Convert

variable (a : Datum) (present : a ≠ .null)

include present

theorem convert_boolean : a.convert .boolean = a.toBoolean.map .boolean := by
  cases a with
  | null => exact absurd rfl present
  | boolean b => rfl
  | _ => rfl

theorem convert_integer : a.convert .integer = a.toInteger.map .integer := by
  cases a with
  | null => exact absurd rfl present
  | _ => rfl

theorem convert_double : a.convert .double = a.toDouble.map .double := by
  cases a with
  | null => exact absurd rfl present
  | _ => rfl

theorem convert_present (target : DataType) : a.convert target ≠ .ok .null := by
  cases target with
  | boolean =>
      rw [convert_boolean a present]
      cases a.toBoolean <;> simp [Except.map]
  | integer =>
      rw [convert_integer a present]
      cases a.toInteger <;> simp [Except.map]
  | double =>
      rw [convert_double a present]
      cases a.toDouble <;> simp [Except.map]
  | text =>
      cases a with
      | null => exact absurd rfl present
      | _ => simp [convert, type?, isNull]

end Convert

inductive SameAnswer : Except DatumError Datum → Except DatumError Datum → Prop where
  | failed (failure : DatumError) : SameAnswer (.error failure) (.error failure)
  | equal (a b : Datum) (equals : a.equals b = true) : SameAnswer (.ok a) (.ok b)

theorem equals_refl (a : Datum) : a.equals a = true := by
  cases a with
  | double x => rw [equals, Binary64.compare_eq_standing, cmp_self_eq_eq]; rfl
  | null => rfl
  | _ => exact beq_self_eq_true _

theorem same_answer_refl (answer : Except DatumError Datum) : SameAnswer answer answer := by
  cases answer with
  | error failure => exact .failed failure
  | ok a => exact .equal a a (equals_refl a)

theorem present_of_alike (a b : Datum) (alike : a.Alike b) (present : a ≠ .null) : b ≠ .null := by
  rintro rfl
  exact absurd ((alike_iff a .null).mp alike) (null_rank_lt a present).ne'

theorem convert_alike (a b : Datum) (target : DataType) (readable : target ≠ .text)
    (alike : a.Alike b) : SameAnswer (a.convert target) (b.convert target) := by
  by_cases null : a = .null
  · have other : b = .null := by
      by_contra present
      exact present_of_alike b a (alike_symm a b alike) present null
    rw [null, other]
    exact same_answer_refl _
  · have present := present_of_alike a b alike null
    cases target with
    | boolean =>
        rw [convert_boolean a null, convert_boolean b present, to_boolean_alike a b alike]
        exact same_answer_refl _
    | integer =>
        rw [convert_integer a null, convert_integer b present, to_integer_alike a b alike]
        exact same_answer_refl _
    | double =>
        rw [convert_double a null, convert_double b present]
        rcases to_double_alike a b alike with same | ⟨x, y, left, right, equal⟩
        · rw [same]
          exact same_answer_refl _
        · rw [left, right]
          exact .equal _ _ (beq_iff_eq.mpr equal)
    | text => exact absurd rfl readable

end Datum

end Aggregation
