import Mathlib
import Aggregation.Proofs.Binary64.Rounds
import Aggregation.Proofs.Binary64.Scaling

set_option autoImplicit false

namespace Aggregation.Binary64

open Standing

theorem at_most_refl (x : Binary64) (number : x ≠ .nan) : x.atMost x = true :=
  (at_most_iff x x number).mpr (le_refl _)

theorem at_most_exact (x y : Binary64) (p q : ℚ) (left : x.standing = ofRat p) (right : y.standing = ofRat q) :
    x.atMost y = true ↔ p ≤ q := by
  have number : y ≠ .nan := by
    rintro rfl
    cases right
  rw [at_most_iff x y number, left, right, of_rat_strict_mono.le_iff_le]

theorem infinite_at_most (x : Binary64) (number : x ≠ .nan) : (infinity true).atMost x = true :=
  (at_most_iff _ x number).mpr (infinite_le x)

theorem at_most_infinite (x : Binary64) (number : x ≠ .nan) : x.atMost (infinity false) = true :=
  (at_most_iff x _ Binary64.noConfusion).mpr (le_infinite x number)

theorem at_most_number_left (x y : Binary64) (le : x.atMost y = true) : x ≠ .nan := by
  rintro rfl
  cases le

theorem at_most_lowest (x : Binary64) (le : x.atMost (infinity true) = true) : x = infinity true := by
  rw [at_most_iff _ _ Binary64.noConfusion] at le
  cases x with
  | nan => exact absurd le (WithTop.coe_lt_top _).not_ge
  | infinity negative =>
      cases negative with
      | true => rfl
      | false => exact absurd le ((infinite_lt_rat 0).trans (rat_lt_infinite 0)).not_ge
  | finite negative index => exact absurd le (infinite_lt_rat _).not_ge

theorem highest_at_most (x : Binary64) (le : (infinity false).atMost x = true) : x = infinity false := by
  have number := at_most_number _ x le
  rw [at_most_iff _ _ number] at le
  cases x with
  | nan => exact absurd rfl number
  | infinity negative =>
      cases negative with
      | true => exact absurd le ((infinite_lt_rat 0).trans (rat_lt_infinite 0)).not_ge
      | false => rfl
  | finite negative index => exact absurd le (rat_lt_infinite _).not_ge

-- A function of the rationals that doubles follow up to rounding, and from infinity to infinity.
structure Follows (f : Binary64 → Binary64) (g : ℚ → ℚ) : Prop where
  infinite : ∀ negative, f (.infinity negative) = .infinity negative
  finite : ∀ x q, x.standing = ofRat q → (f x).standing = rounded (g q)

theorem follows_number (f : Binary64 → Binary64) (g : ℚ → ℚ) (follows : Follows f g) (x : Binary64)
    (number : x ≠ .nan) : f x ≠ .nan := by
  cases x with
  | nan => exact absurd rfl number
  | infinity negative =>
      rw [follows.infinite]
      exact Binary64.noConfusion
  | finite negative index =>
      have stands := follows.finite (finite negative index) _ rfl
      exact rounds_number _ _ (rounds_of_rounded _ _ stands)

theorem follows_mono (f : Binary64 → Binary64) (g : ℚ → ℚ) (follows : Follows f g) (mono : Monotone g)
    (x y : Binary64) (le : x.atMost y = true) : (f x).atMost (f y) = true := by
  have left := follows_number f g follows x (at_most_number_left x y le)
  have right := follows_number f g follows y (at_most_number x y le)
  cases x with
  | nan => cases le
  | infinity negative =>
      cases negative with
      | true =>
          rw [follows.infinite]
          exact infinite_at_most _ right
      | false =>
          rw [highest_at_most y le]
          exact at_most_refl _ left
  | finite a i =>
      cases y with
      | nan => exact absurd rfl (at_most_number _ _ le)
      | infinity negative =>
          cases negative with
          | true => cases at_most_lowest _ le
          | false =>
              rw [follows.infinite]
              exact at_most_infinite _ left
      | finite b j =>
          rw [at_most_exact _ _ _ _ rfl rfl] at le
          rw [at_most_iff _ _ right, follows.finite (finite a i) _ rfl, follows.finite (finite b j) _ rfl]
          exact rounded_mono (mono le)

section Operations

variable (c : Binary64) (q : ℚ) (exact_c : c.standing = ofRat q)

include exact_c

theorem follows_mul (positive : 0 < q) : Follows (· * c) (· * q) := by
  obtain ⟨index, later, rfl, _⟩ := positive_form c q exact_c positive
  refine ⟨fun negative => ?_, fun x p exact_x => mul_rounded x _ p q exact_x exact_c⟩
  change (if index.val = 0 then nan else infinity (negative != false)) = infinity negative
  rw [if_neg later.ne', Bool.bne_false]

theorem follows_add : Follows (· + c) (· + q) := by
  obtain ⟨negative, index, rfl, _⟩ := finite_of_standing c q exact_c
  exact ⟨fun _ => rfl, fun x p exact_x => add_rounded x _ p q exact_x exact_c⟩

theorem add_follows : Follows (c + ·) (q + ·) := by
  obtain ⟨negative, index, rfl, _⟩ := finite_of_standing c q exact_c
  exact ⟨fun _ => rfl, fun x p exact_x => add_rounded _ x q p exact_c exact_x⟩

theorem follows_div (positive : 0 < q) : Follows (· / c) (· / q) := by
  obtain ⟨index, later, rfl, _⟩ := positive_form c q exact_c positive
  refine ⟨fun negative => ?_, fun x p exact_x => div_rounded x _ p q exact_x exact_c positive.ne'⟩
  change infinity (negative != false) = infinity negative
  rw [Bool.bne_false]

end Operations

theorem neg_at_most (x y : Binary64) (le : x.atMost y = true) : (-y).atMost (-x) = true := by
  have negated (z : Binary64) (place : Int) (found : z.place? = some place) : (-z).place? = some (-place) := by
    cases z with
    | nan => cases found
    | infinity negative =>
        cases found
        exact congrArg some (neg_signed negative _).symm
    | finite negative index =>
        cases found
        exact congrArg some (neg_signed negative _).symm
  obtain ⟨p, left⟩ := place_of_number x (at_most_number_left x y le)
  obtain ⟨q, right⟩ := place_of_number y (at_most_number x y le)
  rw [at_most_places x y p q left right] at le
  rw [at_most_places _ _ _ _ (negated y q right) (negated x p left)]
  exact Int.neg_le_neg le

theorem neg_not_positive (x : Binary64) (low : zero.atMost x = true) : (-x).atMost zero = true := by
  have flip : (-zero).atMost zero = true := by decide +kernel
  exact at_most_trans _ _ _ (neg_at_most _ _ low) flip

theorem neg_at_most_self (x : Binary64) (low : zero.atMost x = true) : (-x).atMost x = true :=
  at_most_trans _ _ _ (neg_not_positive x low) low

def orZero : Binary64 → Binary64
  | .nan => zero
  | .infinity negative => .infinity negative
  | .finite negative index => .finite negative index

theorem or_zero_number (x : Binary64) : x.orZero ≠ .nan := by
  cases x <;> exact Binary64.noConfusion

theorem or_zero_of_number (x : Binary64) (number : x ≠ .nan) : x.orZero = x := by
  cases x with
  | nan => exact absurd rfl number
  | infinity negative => rfl
  | finite negative index => rfl

theorem infinity_add_finite (negative other : Bool) (index : Fin finiteCount) :
    infinity negative + finite other index = infinity negative := rfl

theorem infinity_add_mono (negative : Bool) (a b : Binary64) (le : a.atMost b = true) :
    (infinity negative + a).orZero.atMost (infinity negative + b).orZero = true := by
  cases a with
  | nan => cases le
  | infinity aSign =>
      cases aSign with
      | false =>
          rw [highest_at_most b le]
          exact at_most_refl _ (or_zero_number _)
      | true =>
          cases b with
          | nan => exact absurd rfl (at_most_number _ _ le)
          | infinity bSign => cases negative <;> cases bSign <;> decide +kernel
          | finite bSign j =>
              rw [infinity_add_finite]
              cases negative <;> decide +kernel
  | finite aSign i =>
      rw [infinity_add_finite]
      cases b with
      | nan => exact absurd rfl (at_most_number _ _ le)
      | infinity bSign =>
          cases bSign with
          | true => cases at_most_lowest _ le
          | false => cases negative <;> decide +kernel
      | finite bSign j =>
          rw [infinity_add_finite]
          exact at_most_refl _ (or_zero_number _)

theorem add_or_zero_mono (x a b : Binary64) (le : a.atMost b = true) :
    (x + a).orZero.atMost (x + b).orZero = true := by
  cases x with
  | nan => exact at_most_refl _ (or_zero_number _)
  | infinity negative => exact infinity_add_mono negative a b le
  | finite negative index =>
      have follows := add_follows (finite negative index) _ rfl
      have mono := follows_mono _ _ follows (fun p q le => add_le_add_right le _) a b le
      rwa [or_zero_of_number _ (at_most_number_left _ _ mono), or_zero_of_number _ (at_most_number _ _ mono)]

end Aggregation.Binary64
