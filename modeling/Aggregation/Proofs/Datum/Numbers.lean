import Mathlib
import Aggregation.Proofs.Binary64.Sign
import Aggregation.Proofs.Binary64.Thousandths
import Aggregation.Proofs.Datum.Whole

set_option autoImplicit false

namespace Aggregation

-- The whole number nearest to a rational; of two that are as near, the one further from zero.
structure NearestWhole (q : ℚ) (n : ℤ) : Prop where
  closest : ∀ m : ℤ, |q - n| ≤ |q - m|
  tie : ∀ m : ℤ, |q - m| = |q - n| → |m| ≤ |n|

namespace NearestWhole

theorem whole (n : ℤ) : NearestWhole n n where
  closest m := by
    rw [sub_self, abs_zero]
    exact abs_nonneg _
  tie m same := by
    rw [sub_self, abs_zero, abs_eq_zero, sub_eq_zero, Int.cast_inj] at same
    rw [same]

theorem neg (q : ℚ) (n : ℤ) (nearest : NearestWhole q n) : NearestWhole (-q) (-n) := by
  have mirrored (m : ℤ) : |-q - m| = |q - (-m : ℤ)| := by
    rw [Int.cast_neg, sub_neg_eq_add, ← abs_neg]
    congr 1
    ring
  constructor
  · intro m
    rw [mirrored, mirrored, neg_neg]
    exact nearest.closest (-m)
  · intro m same
    rw [mirrored, mirrored, neg_neg] at same
    rw [abs_neg, ← abs_neg m]
    exact nearest.tie (-m) same

theorem of_floor (q : ℚ) (n : ℕ) (low : 0 ≤ q) (below : n ≤ q + 1 / 2) (above : q + 1 / 2 < n + 1) :
    NearestWhole q n := by
  have near : |q - n| ≤ 1 / 2 := abs_le.mpr ⟨by linarith, by linarith⟩
  -- Any other whole number is a half or more away, and less than this one if it is no more.
  have others (m : ℤ) (other : m ≠ n) : 1 / 2 ≤ |q - m| ∧ (|q - m| ≤ 1 / 2 → m = n - 1) := by
    rcases lt_or_gt_of_ne other with less | more
    · have gap : (m : ℚ) + 1 ≤ n := by exact_mod_cast less
      refine ⟨le_abs.mpr (.inl (by linarith)), fun close => ?_⟩
      have reach : ((n : ℤ) : ℚ) < (m + 2 : ℤ) := by
        have bound := (abs_le.mp close).2
        push_cast
        linarith
      have short : (n : ℤ) < m + 2 := Int.cast_lt.mp reach
      omega
    · have gap : (n : ℚ) + 1 ≤ m := by exact_mod_cast more
      refine ⟨le_abs.mpr (.inr (by linarith)), fun close => ?_⟩
      have bound := (abs_le.mp close).1
      linarith
  constructor
  · intro m
    by_cases same : m = n
    · rw [same]
    · exact near.trans (others m same).1
  · intro m same
    by_cases equal : m = n
    · rw [equal]
    · have before := (others m equal).2 (same.le.trans near)
      have reach := (abs_le.mp (same.le.trans near)).2
      rw [before] at reach
      push_cast at reach
      have positive : 0 < n := by
        rw [← Nat.cast_pos (α := ℚ)]
        linarith
      rw [before, abs_of_nonneg (by omega), abs_of_nonneg (by omega)]
      omega

section Order

variable (p q : ℚ) (m n : ℤ) (left : NearestWhole p m) (right : NearestWhole q n)

include left right

theorem unique (same : p = q) : m = n := by
  subst same
  have distance := le_antisymm (left.closest n) (right.closest m)
  have size := le_antisymm (right.tie m distance) (left.tie n distance.symm)
  rcases abs_eq_abs.mp size with equal | opposite
  · exact equal
  · -- Opposite whole numbers are as near only to zero, to which zero is nearer.
    rw [opposite, Int.cast_neg, sub_neg_eq_add, abs_eq_abs] at distance
    have zero := right.closest 0
    rw [Int.cast_zero, sub_zero] at zero
    rcases distance with same | same
    · have flat : (n : ℚ) = 0 := by linarith
      rw [opposite, Int.cast_eq_zero.mp flat, neg_zero]
    · have flat : p = 0 := by linarith
      rw [flat, zero_sub, abs_neg, abs_zero, abs_nonpos_iff, Int.cast_eq_zero] at zero
      rw [opposite, zero, neg_zero]

theorem mono (le : p ≤ q) : m ≤ n := by
  by_contra less
  have gap : (n : ℚ) < m := by exact_mod_cast not_le.mp less
  have high : ((m : ℚ) + n) / 2 ≤ p := by
    have closer := sq_le_sq.mpr (left.closest n)
    nlinarith
  have low : q ≤ ((m : ℚ) + n) / 2 := by
    have closer := sq_le_sq.mpr (right.closest m)
    nlinarith
  have same : p = q := le_antisymm le (low.trans high)
  exact less (unique p q m n left right same).le

end Order

end NearestWhole

namespace Binary64

theorem half_added (index : Nat) :
    let n := (2 * units index + unitsInOne) / (2 * unitsInOne)
    (n : ℚ) ≤ units index / unitsInOne + 1 / 2 ∧ (units index : ℚ) / unitsInOne + 1 / 2 < n + 1 := by
  intro n
  have unit := unit_rat_pos
  have sum : (units index : ℚ) / unitsInOne + 1 / 2 =
      (2 * units index + unitsInOne : Nat) / (2 * unitsInOne : Nat) := by
    push_cast
    field_simp
  have floor : n = ⌊(units index : ℚ) / unitsInOne + 1 / 2⌋₊ := by
    rw [sum, Nat.floor_div_eq_div]
  have low : (0 : ℚ) ≤ units index / unitsInOne + 1 / 2 := by
    rw [sum]
    exact div_nonneg (Nat.cast_nonneg _) (Nat.cast_nonneg _)
  rw [floor]
  exact ⟨Nat.floor_le low, Nat.lt_floor_add_one _⟩

theorem round_finite (negative : Bool) (index : Fin finiteCount) :
    ∃ n, (finite negative index).round? = some n ∧ NearestWhole (value negative index.val) n := by
  obtain ⟨below, above⟩ := half_added index.val
  have low : (0 : ℚ) ≤ units index.val / unitsInOne := div_nonneg (Nat.cast_nonneg _) (Nat.cast_nonneg _)
  have nearest := NearestWhole.of_floor _ _ low below above
  refine ⟨_, rfl, ?_⟩
  rw [value_eq_units]
  cases negative with
  | false => exact nearest
  | true =>
      rw [signed_true, signed_true, Int.cast_neg, neg_div]
      exact nearest.neg

theorem of_int_le (n : ℤ) (x : Binary64) (le : .ofRat n ≤ x.standing) : (ofInt n).standing ≤ x.standing := by
  cases x with
  | nan => exact le_top
  | infinity negative =>
      cases negative with
      | true => exact absurd le (Standing.infinite_lt_rat _).not_ge
      | false => exact le_infinite _ (rounds_number _ _ (rounds_of_rounded _ _ (of_int_rounded n)))
  | finite negative index =>
      have exact_x : (finite negative index).standing = .ofRat (value negative index.val) := rfl
      rw [exact_x, Standing.of_rat_strict_mono.le_iff_le] at le
      rw [of_int_rounded, exact_x, ← rounded_exact _ _ exact_x]
      exact rounded_mono le

theorem le_of_int (n : ℤ) (x : Binary64) (le : x.standing ≤ .ofRat n) : x.standing ≤ (ofInt n).standing := by
  cases x with
  | nan => exact absurd le (WithTop.coe_lt_top _).not_ge
  | infinity negative =>
      cases negative with
      | true => exact infinite_le _
      | false => exact absurd le (Standing.rat_lt_infinite _).not_ge
  | finite negative index =>
      have exact_x : (finite negative index).standing = .ofRat (value negative index.val) := rfl
      rw [exact_x, Standing.of_rat_strict_mono.le_iff_le] at le
      rw [of_int_rounded, exact_x, ← rounded_exact _ _ exact_x]
      exact rounded_mono le

end Binary64

namespace Datum

theorem fitted_ok (k : Int) (n : Int64) : fitted k = .ok n ↔ n.toInt = k := by
  constructor
  · intro fits
    by_cases inside : Word.least ≤ k ∧ k ≤ Word.greatest
    · obtain ⟨word, found, exact_word⟩ := Word.of_int_inside k inside.1 inside.2
      rw [fitted, found] at fits
      cases fits
      exact exact_word
    · rw [fitted_outside k (by omega)] at fits
      cases fits
  · rintro rfl
    rw [fitted, Word.of_int_word]

theorem word_nearest_finite (x : Binary64) (q : ℚ) (exact_x : x.standing = .ofRat q) :
    ∃ k, NearestWhole q k ∧ wordNearest x = fitted k := by
  obtain ⟨negative, index, rfl, rfl⟩ := Binary64.finite_of_standing x q exact_x
  obtain ⟨k, rounded, nearest⟩ := Binary64.round_finite negative index
  refine ⟨k, nearest, ?_⟩
  rw [wordNearest, rounded, Option.bind_some]
  rfl

theorem word_nearest_iff (x : Binary64) (n : Int64) :
    wordNearest x = .ok n ↔ ∃ q, x.standing = .ofRat q ∧ NearestWhole q n.toInt := by
  constructor
  · intro read
    cases x with
    | nan => cases read
    | infinity negative => cases read
    | finite negative index =>
        obtain ⟨k, nearest, outcome⟩ := word_nearest_finite (.finite negative index) _ rfl
        rw [outcome, fitted_ok] at read
        exact ⟨_, rfl, read ▸ nearest⟩
  · rintro ⟨q, exact_x, nearest⟩
    obtain ⟨k, also, outcome⟩ := word_nearest_finite x q exact_x
    rw [outcome, fitted_ok, also.unique _ _ k n.toInt nearest rfl]

theorem to_integer_iff (a : Datum) (s : Standing) (number : a.standing? = some s) (n : Int64) :
    a.toInteger = .ok n ↔ ∃ q, s = .ofRat q ∧ NearestWhole q n.toInt := by
  cases a <;> cases number
  case integer.refl m =>
    constructor
    · rintro ⟨⟩
      exact ⟨_, rfl, .whole n.toInt⟩
    · rintro ⟨q, same, nearest⟩
      have equal := NearestWhole.unique _ _ m.toInt n.toInt (.whole m.toInt) nearest
        (Standing.of_rat_strict_mono.injective same)
      rw [toInteger, Int64.toInt_inj.mp equal]
  case double.refl x => exact word_nearest_iff x n

section Order

variable (a b : Datum) (s t : Standing) (left : a.standing? = some s) (right : b.standing? = some t)

include left right

theorem at_most_standing : AtMost a b ↔ s ≤ t := by
  rw [AtMost, compare_standing a b s t left right]
  constructor
  · rintro ⟨order, answer, bound⟩
    rw [Except.ok.injEq] at answer
    rw [← answer, Ne, cmp_eq_gt_iff] at bound
    exact not_lt.mp bound
  · intro le
    exact ⟨_, rfl, fun more => absurd ((cmp_eq_gt_iff _ _).mp more) le.not_gt⟩

theorem to_integer_mono (le : s ≤ t) (m n : Int64) (first : a.toInteger = .ok m)
    (second : b.toInteger = .ok n) : m.toInt ≤ n.toInt := by
  obtain ⟨p, rfl, near⟩ := (to_integer_iff a s left m).mp first
  obtain ⟨q, rfl, nearOther⟩ := (to_integer_iff b t right n).mp second
  exact near.mono p q m.toInt n.toInt nearOther (Standing.of_rat_strict_mono.le_iff_le.mp le)

theorem to_double_mono (le : s ≤ t) :
    ∃ x y, a.toDouble = .ok x ∧ b.toDouble = .ok y ∧ x.standing ≤ y.standing := by
  cases a <;> cases left <;> cases b <;> cases right
  case integer.refl.integer.refl n m =>
    refine ⟨_, _, rfl, rfl, ?_⟩
    rw [Binary64.of_int_rounded, Binary64.of_int_rounded]
    exact Binary64.rounded_mono (Standing.of_rat_strict_mono.le_iff_le.mp le)
  case integer.refl.double.refl n y => exact ⟨_, y, rfl, rfl, Binary64.of_int_le n.toInt y le⟩
  case double.refl.integer.refl x m => exact ⟨x, _, rfl, rfl, Binary64.le_of_int m.toInt x le⟩
  case double.refl.double.refl x y => exact ⟨x, y, rfl, rfl, le⟩

end Order

theorem double_read (x : Binary64) :
    (∀ q, x.standing = .ofRat q → ∃ k, NearestWhole q k ∧ (∀ other, NearestWhole q other → other = k) ∧
      (Word.least ≤ k → k ≤ Word.greatest → ∃ n, (double x).toInteger = .ok n ∧ n.toInt = k) ∧
      (k < Word.least ∨ Word.greatest < k → (double x).toInteger = .error .overflow)) ∧
    (x.isFinite = false → (double x).toInteger = .error .overflow) := by
  refine ⟨fun q exact_x => ?_, fun infinite => ?_⟩
  · obtain ⟨k, nearest, outcome⟩ := word_nearest_finite x q exact_x
    have outcome : (double x).toInteger = fitted k := outcome
    refine ⟨k, nearest, fun other also => also.unique _ _ other k nearest rfl, fun low high => ?_, fun outside => ?_⟩
    · obtain ⟨n, _, exact_n⟩ := Word.of_int_inside k low high
      exact ⟨n, outcome.trans ((fitted_ok k n).mpr exact_n), exact_n⟩
    · rw [outcome, fitted_outside k outside]
  · cases x with
    | nan => rfl
    | infinity negative => rfl
    | finite negative index => cases infinite

theorem present_of_number (a : Datum) (number : a.standing?.isSome) : a ≠ .null := by
  rintro rfl
  cases number

theorem convert_to_integer (a : Datum) (n : Int64) (present : a ≠ .null)
    (converted : a.convert .integer = .ok (.integer n)) : a.toInteger = .ok n := by
  rw [convert_integer a present] at converted
  cases read : a.toInteger with
  | error failure => simp [read, Except.map] at converted
  | ok m =>
      rw [read] at converted
      cases converted
      rfl

theorem converted_in_order (a b : Datum) (first : a.standing?.isSome) (second : b.standing?.isSome)
    (le : AtMost a b) :
    (∃ x y, a.convert .double = .ok (.double x) ∧ b.convert .double = .ok (.double y) ∧
      AtMost (.double x) (.double y)) ∧
    ∀ m n, a.convert .integer = .ok (.integer m) → b.convert .integer = .ok (.integer n) →
      a.toInteger = .ok m ∧ b.toInteger = .ok n ∧ m.toInt ≤ n.toInt := by
  obtain ⟨s, left⟩ := Option.isSome_iff_exists.mp first
  obtain ⟨t, right⟩ := Option.isSome_iff_exists.mp second
  have present := present_of_number a first
  have also := present_of_number b second
  have order := (at_most_standing a b s t left right).mp le
  refine ⟨?_, fun m n leftConverted rightConverted => ?_⟩
  · obtain ⟨x, y, leftRead, rightRead, ordered⟩ := to_double_mono a b s t left right order
    refine ⟨x, y, ?_, ?_, (at_most_standing _ _ _ _ rfl rfl).mpr ordered⟩
    · rw [convert_double a present, leftRead]
      rfl
    · rw [convert_double b also, rightRead]
      rfl
  · have leftRead := convert_to_integer a m present leftConverted
    have rightRead := convert_to_integer b n also rightConverted
    exact ⟨leftRead, rightRead, to_integer_mono a b s t left right order m n leftRead rightRead⟩

end Datum

end Aggregation
