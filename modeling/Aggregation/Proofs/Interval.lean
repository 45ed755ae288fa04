import Mathlib
import Aggregation.Aggregate
import Aggregation.Proofs.Binary64.Sign
import Aggregation.Proofs.Binary64.Thousandths

set_option autoImplicit false

namespace Aggregation

namespace Moments

open Binary64 Standing

def margin (moments : Moments Binary64) (count score : Binary64) : Binary64 :=
  score * ((moments.sampleVariance count).sqrt / count.sqrt)

theorem margin_forms (moments : Moments Binary64) (n : Nat) (positive : 0 < n) :
    let spread := (moments.sampleVariance (ofNat n)).sqrt / (ofNat n).sqrt
    spread = .nan ∨ zero.atMost spread = true := by
  intro spread
  obtain ⟨index, later, _, form⟩ := of_nat_form n positive
  obtain ⟨root, above, same, _⟩ := sqrt_of_index index later
  have forms := div_forms _ root above (sqrt_forms (moments.sampleVariance (ofNat n)))
  rwa [← same, ← form] at forms

theorem interval_eq (moments : Moments Binary64) (count score : Binary64) :
    moments.interval count score =
      ((moments.mean - moments.margin count score).toThousandths,
        (moments.mean + moments.margin count score).toThousandths) := rfl

theorem interval_nested (moments : Moments Binary64) (n : Nat) (positive : 0 < n) (y z : Binary64) (p q : ℚ)
    (exact_y : y.standing = ofRat p) (exact_z : z.standing = ofRat q) (above : 0 < p) (le : p ≤ q) :
    let inner := moments.interval (ofNat n) y
    let outer := moments.interval (ofNat n) z
    inner.1.atMost inner.2 = true ∧ outer.1.atMost inner.1 = true ∧ inner.2.atMost outer.2 = true := by
  intro inner outer
  rcases margin_forms moments n positive with lost | low
  · have lostMargin (w : Binary64) : moments.margin (ofNat n) w = .nan := by
      rw [margin, lost]
      cases w <;> rfl
    have same (w : Binary64) : moments.interval (ofNat n) w = (toThousandths .nan, toThousandths .nan) := by
      have add_nan (x : Binary64) : x + .nan = .nan := by cases x <;> rfl
      have sub_nan (x : Binary64) : x - .nan = .nan := by cases x <;> rfl
      rw [interval_eq, lostMargin, add_nan, sub_nan]
    have number := at_most_refl _ (to_thousandths_number .nan)
    rw [show inner = _ from same y, show outer = _ from same z]
    exact ⟨number, number, number⟩
  · obtain ⟨low', mono⟩ := mul_not_negative_mono y z _ p q exact_y exact_z above le low
    exact ⟨thousandths_sum_mono _ _ _ (neg_at_most_self _ low'),
      thousandths_sum_mono _ _ _ (neg_at_most _ _ mono), thousandths_sum_mono _ _ _ mono⟩

end Moments

namespace ConfidenceLevel

open Binary64 Standing

def permille : ConfidenceLevel → Nat
  | .p80 => 800
  | .p85 => 850
  | .p90 => 900
  | .p95 => 950
  | .p99 => 990
  | .p995 => 995
  | .p999 => 999

theorem thousandths_mono (narrow wide : ConfidenceLevel) (le : narrow.permille ≤ wide.permille) :
    narrow.thousandths ≤ wide.thousandths := by
  revert le
  cases narrow <;> cases wide <;> decide

theorem thousandths_within (level : ConfidenceLevel) : 1000 ≤ level.thousandths ∧ level.thousandths ≤ 4000 := by
  cases level <;> decide

theorem score_rounded (level : ConfidenceLevel) :
    level.score.standing = rounded (level.thousandths / 1000) := by
  have num : Decimal.numerator ⟨level.thousandths, -3⟩ = level.thousandths := Nat.mul_one _
  have den : Decimal.denominator ⟨level.thousandths, -3⟩ = 1000 := by
    change Nat.pow 10 3 = 1000
    decide
  have ratio := of_ratio_rounded false level.thousandths 1000 (by norm_num)
  rwa [signed_false, Int.cast_natCast, Nat.cast_ofNat, ← num, ← den, ← ofDecimal, num] at ratio

theorem score_standing (level : ConfidenceLevel) : ∃ q, 0 < q ∧ level.score.standing = ofRat q := by
  obtain ⟨low, high⟩ := thousandths_within level
  have above : (1000 : ℚ) ≤ level.thousandths := by exact_mod_cast low
  have below : (level.thousandths : ℚ) ≤ 4000 := by exact_mod_cast high
  have size : |(level.thousandths / 1000 : ℚ)| = level.thousandths / 1000 := abs_of_nonneg (by linarith)
  obtain ⟨q, same, near⟩ :=
    rounded_moderate (level.thousandths / 1000) (by rw [size]; linarith) (by rw [size]; linarith)
  refine ⟨q, ?_, (score_rounded level).trans same⟩
  by_contra negative
  rw [abs_of_nonpos (not_lt.mp negative)] at near
  linarith [(abs_le.mp near).2]

theorem score_mono (narrow wide : ConfidenceLevel) (le : narrow.permille ≤ wide.permille) (p q : ℚ)
    (left : narrow.score.standing = ofRat p) (right : wide.score.standing = ofRat q) : p ≤ q := by
  rw [← of_rat_strict_mono.le_iff_le, ← left, ← right, score_rounded, score_rounded]
  apply rounded_mono
  rw [div_le_div_iff_of_pos_right (by norm_num)]
  exact_mod_cast thousandths_mono narrow wide le

end ConfidenceLevel

end Aggregation
