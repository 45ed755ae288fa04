import Mathlib
import Aggregation.Proofs.Binary64.Nearest

set_option autoImplicit false

namespace Aggregation.Binary64

open Standing

structure Rounds (q : ℚ) (x : Binary64) : Prop where
  above : ∀ y : Binary64, .ofRat q ≤ y.standing → x.standing ≤ y.standing
  below : ∀ y : Binary64, y.standing ≤ .ofRat q → y.standing ≤ x.standing

theorem rounds_le (q p : ℚ) (x y : Binary64) (rounds : Rounds q x) (exact_y : y.standing = .ofRat p)
    (le : q ≤ p) : x.standing ≤ y.standing :=
  rounds.above y (exact_y ▸ Standing.of_rat_strict_mono.monotone le)

theorem le_rounds (q p : ℚ) (x y : Binary64) (rounds : Rounds q x) (exact_y : y.standing = .ofRat p)
    (le : p ≤ q) : y.standing ≤ x.standing :=
  rounds.below y (exact_y ▸ Standing.of_rat_strict_mono.monotone le)

theorem rounds_exact (q : ℚ) (x y : Binary64) (rounds : Rounds q x) (exact_y : y.standing = .ofRat q) :
    x.standing = .ofRat q := by
  rw [← exact_y]
  exact le_antisymm (rounds_le q q x y rounds exact_y (le_refl q)) (le_rounds q q x y rounds exact_y (le_refl q))

theorem rounds_number (q : ℚ) (x : Binary64) (rounds : Rounds q x) : x ≠ .nan := by
  rintro rfl
  exact absurd (rounds.above (.infinity false) (Standing.rat_lt_infinite q).le)
    (WithTop.coe_lt_top _).not_ge

theorem infinite_le (x : Binary64) : infinite true ≤ x.standing := by
  cases x with
  | nan => exact le_top
  | infinity negative =>
      cases negative with
      | true => exact le_refl _
      | false => exact ((infinite_lt_rat 0).trans (rat_lt_infinite 0)).le
  | finite negative index => exact (infinite_lt_rat _).le

theorem le_infinite (x : Binary64) (number : x ≠ .nan) : x.standing ≤ infinite false := by
  cases x with
  | nan => exact absurd rfl number
  | infinity negative =>
      cases negative with
      | true => exact infinite_le (.infinity false)
      | false => exact le_refl _
  | finite negative index => exact (rat_lt_infinite _).le

theorem rounds_of_rounded (q : ℚ) (x : Binary64) (stands : x.standing = rounded q) : Rounds q x := by
  have number : x ≠ .nan := by
    rintro rfl
    exact absurd stands (rounded_lt_top q).ne'
  refine ⟨fun y le => ?_, fun y le => ?_⟩
  · cases y with
    | nan => exact le_top
    | infinity negative =>
        cases negative with
        | true => exact absurd le (infinite_lt_rat q).not_ge
        | false => exact le_infinite x number
    | finite negative index =>
        rw [stands, standing, ← rounded_exact (.finite negative index) _ rfl]
        exact rounded_mono (of_rat_strict_mono.le_iff_le.mp le)
  · cases y with
    | nan => exact absurd le (WithTop.coe_lt_top _).not_ge
    | infinity negative =>
        cases negative with
        | true => exact infinite_le x
        | false => exact absurd le (rat_lt_infinite q).not_ge
    | finite negative index =>
        rw [stands, standing, ← rounded_exact (.finite negative index) _ rfl]
        exact rounded_mono (of_rat_strict_mono.le_iff_le.mp le)

section Operations

variable (x y : Binary64) (p q : ℚ) (left : x.standing = .ofRat p) (right : y.standing = .ofRat q)

include left right

theorem mul_rounds : Rounds (p * q) (x * y) :=
  rounds_of_rounded _ _ (mul_rounded x y p q left right)

theorem div_rounds (nonzero : q ≠ 0) : Rounds (p / q) (x / y) :=
  rounds_of_rounded _ _ (div_rounded x y p q left right nonzero)

end Operations

end Aggregation.Binary64
