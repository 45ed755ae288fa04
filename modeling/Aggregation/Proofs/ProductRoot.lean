import Mathlib
import Aggregation.Proofs.RunningProduct

set_option autoImplicit false

namespace Aggregation.Binary64

open Standing

-- What rounding below the normal doubles may move a mean by; rounding to thousandths takes the rest of a
-- thousandth.
def margin : ℚ := 1 / 2040

theorem margin_pos : 0 < margin := by norm_num [margin]

theorem margin_real : (margin : ℝ) = 1 / 2040 := by norm_num [margin]

theorem powers_apart (x y factor : ℝ) (count : Nat) (low : 0 < x) (high : 0 < y) (positive : 0 < factor)
    (apart : Real.log factor * y ≤ count * (y - x)) : factor * x ^ count ≤ y ^ count := by
  have ratio : 0 < y / x := div_pos high low
  have grows : Real.log factor ≤ count * Real.log (y / x) := by
    have least := mul_le_mul_of_nonneg_left (Real.one_sub_inv_le_log_of_pos ratio) (Nat.cast_nonneg (α := ℝ) count)
    refine le_trans ?_ least
    rw [inv_div, one_sub_div high.ne', ← mul_div_assoc, le_div_iff₀ high]
    exact apart
  rw [← Real.log_pow, Real.log_le_log_iff positive (pow_pos ratio count), div_pow, le_div_iff₀ (pow_pos low count)]
    at grows
  exact grows

theorem log_least_normal : Real.log leastNormal = -(1022 * Real.log 2) := by
  have whole : ((binade : ℚ) : ℝ) = 2 ^ 52 := by exact_mod_cast (show binade = 2 ^ 52 by decide)
  rw [leastNormal, Rat.cast_div, whole, Rat.cast_natCast, unit_real, Real.log_div (by positivity) (by positivity),
    Real.log_pow, Real.log_pow, unitPlaces]
  push_cast
  ring

-- A factor below one takes many rows to leave the normal doubles.
theorem many_rows (c : ℝ) (count : Nat) (positive : 0 < c) (low : c ^ count < leastNormal) :
    1022 * Real.log 2 ≤ count * -Real.log c := by
  have less := Real.log_lt_log (pow_pos positive count) low
  rw [Real.log_pow, log_least_normal] at less
  linarith

-- By what factor rounding below the normal doubles can change a product of numbers about `c`.
noncomputable def gain (c : ℝ) : ℝ := 1 + 1 / ((2 : Nat) * (1 - c))

theorem gain_eq (c : ℝ) : gain c = 1 + 1 / (2 * (1 - c)) := by
  rw [gain, Nat.cast_ofNat]

theorem one_le_gain (c : ℝ) (less : c < 1) : 1 ≤ gain c := by
  rw [gain_eq]
  exact le_add_of_nonneg_right (one_div_pos.mpr (mul_pos two_pos (sub_pos.mpr less))).le

theorem log_gain_nonneg (c : ℝ) (less : c < 1) : 0 ≤ Real.log (gain c) :=
  Real.log_nonneg (one_le_gain c less)

theorem decay_nonneg (c : ℝ) (positive : 0 < c) (less : c < 1) : 0 ≤ -Real.log c :=
  neg_nonneg.mpr (Real.log_nonpos positive.le less.le)

theorem log_gain_le (c : ℝ) (half : 1 / 2 ≤ c) (less : c < 1) : Real.log (gain c) * (1 - c) ≤ Real.log 2 / 2 := by
  have gap : 0 < 1 - c := sub_pos.mpr less
  have wide : 1 ≤ 1 / (2 * (1 - c)) := by
    rw [le_div_iff₀ (by linarith)]
    linarith
  have bernoulli := one_add_mul_self_le_rpow_one_add (show (-1 : ℝ) ≤ 1 by norm_num) wide
  rw [mul_one, one_add_one_eq_two] at bernoulli
  have logs := Real.log_le_log (by linarith) bernoulli
  rw [Real.log_rpow two_pos, ← gain_eq] at logs
  calc Real.log (gain c) * (1 - c) ≤ 1 / (2 * (1 - c)) * Real.log 2 * (1 - c) :=
        mul_le_mul_of_nonneg_right logs gap.le
    _ = Real.log 2 / 2 := by field_simp

theorem log_two_bounds : 0 < Real.log 2 ∧ Real.log 2 < 7 / 10 :=
  ⟨Real.log_pos one_lt_two, by linarith [Real.log_two_lt_d9]⟩

theorem mul_log_le (c k : ℝ) (positive : 0 < c) (scale : 0 < k) : c * -Real.log c ≤ 1 / k + c * (Real.log k - 1) := by
  have tangent := Real.log_le_sub_one_of_pos (one_div_pos.mpr (mul_pos scale positive))
  rw [one_div, Real.log_inv, Real.log_mul scale.ne' positive.ne'] at tangent
  have scaled := mul_le_mul_of_nonneg_left tangent positive.le
  have whole : c * ((k * c)⁻¹ - 1) = 1 / k - c := by field_simp
  rw [whole] at scaled
  linarith

theorem gain_le (c : ℝ) (positive : 0 < c) (less : c < 1) :
    Real.log (gain c) * (c * -Real.log c) ≤ Real.log 2 / 2 := by
  have grows := log_gain_nonneg c less
  rcases le_or_gt (1 / 2) c with large | small
  · have tangent := mul_log_le c 1 positive one_pos
    rw [Real.log_one] at tangent
    refine le_trans (mul_le_mul_of_nonneg_left ?_ grows) (log_gain_le c large less)
    linarith
  · have most : Real.log (gain c) ≤ Real.log 2 := by
      refine Real.log_le_log (one_pos.trans_le (one_le_gain c less)) ?_
      have share : 1 / (2 * (1 - c)) ≤ 1 := by
        rw [div_le_one₀ (by linarith)]
        linarith
      rw [gain_eq]
      linarith
    have half : c * -Real.log c ≤ 1 / 2 := by
      have tangent := mul_log_le c 2 positive two_pos
      have step := mul_nonneg positive.le (sub_nonneg.mpr log_two_bounds.2.le)
      linarith
    calc Real.log (gain c) * (c * -Real.log c) ≤ Real.log 2 * (1 / 2) :=
          mul_le_mul most half (mul_nonneg positive.le (decay_nonneg c positive less)) log_two_bounds.1.le
      _ = Real.log 2 / 2 := by ring

theorem wide_gain_le (c : ℝ) (half : 1 / 2 ≤ c) (less : c < 1) :
    Real.log (gain c) * ((c + margin) * -Real.log c) ≤ 1022 * Real.log 2 * margin := by
  have positive : 0 < c := one_half_pos.trans_le half
  have grows := log_gain_nonneg c less
  have decay := decay_nonneg c positive less
  have whole := gain_le c positive less
  generalize Real.log (gain c) = g at *
  generalize -Real.log c = d at *
  have part : g * d * (1 / 2) ≤ g * d * c := mul_le_mul_of_nonneg_left half (mul_nonneg grows decay)
  rw [margin_real]
  linarith [log_two_bounds.1]

theorem rows_suffice (c size y : ℝ) (count : Nat) (positive : 0 < c) (less : c < 1) (low : c ^ count < leastNormal)
    (bound : size * (y * -Real.log c) ≤ 1022 * Real.log 2 * margin) : size * y ≤ count * margin := by
  have decay : 0 < -Real.log c := neg_pos.mpr (Real.log_neg positive less)
  have many := mul_le_mul_of_nonneg_right (many_rows c count positive low) (Rat.cast_pos.mpr margin_pos).le
  refine le_of_mul_le_mul_right ?_ decay
  linarith

theorem small_factor (c : ℝ) (count : Nat) (positive : 0 < c) (half : c ≤ 1 / 2) (two : 2 ≤ count)
    (low : c ^ count < leastNormal) : 5 / 2 * c ^ count ≤ (c + margin) ^ count := by
  rcases le_or_gt c (1 / 1225) with tiny | large
  · have raise : (5 / 2 : ℝ) ≤ (8 / 5) ^ count :=
      le_trans (by norm_num) (pow_le_pow_right₀ (by norm_num : (1 : ℝ) ≤ 8 / 5) two)
    calc 5 / 2 * c ^ count ≤ (8 / 5) ^ count * c ^ count := mul_le_mul_of_nonneg_right raise (by positivity)
      _ = (8 / 5 * c) ^ count := (mul_pow _ _ _).symm
      _ ≤ (c + margin) ^ count := pow_le_pow_left₀ (by positivity) (by rw [margin_real]; linarith) count
  · obtain ⟨twoPos, twoLess⟩ := log_two_bounds
    have factor : Real.log (5 / 2) ≤ 4 / 3 * Real.log 2 := by
      have cube : Real.log ((5 / 2) ^ 3) ≤ Real.log (2 ^ 4) := Real.log_le_log (by norm_num) (by norm_num)
      rw [Real.log_pow, Real.log_pow] at cube
      push_cast at cube
      linarith
    have decay : -Real.log c ≤ 8 := by
      have reach : Real.log (1 / 2 ^ 11) ≤ Real.log c := Real.log_le_log (by norm_num) (by linarith)
      rw [one_div, Real.log_inv, Real.log_pow] at reach
      push_cast at reach
      linarith
    have tangent := mul_log_le c (27 / 10) positive (by norm_num)
    have scale : Real.log (27 / 10) ≤ 1 := by
      rw [Real.log_le_iff_le_exp (by norm_num)]
      linarith [Real.exp_one_gt_d9]
    have slow : (c + margin) * -Real.log c ≤ 3757 / 10000 := by
      rw [margin_real]
      nlinarith
    have grown : 0 ≤ (c + margin) * -Real.log c :=
      mul_nonneg (by rw [margin_real]; linarith) (decay_nonneg c positive (by linarith))
    refine powers_apart c _ _ count positive (by rw [margin_real]; linarith) (by norm_num) ?_
    rw [add_sub_cancel_left]
    refine rows_suffice c _ _ count positive (by linarith) low ?_
    calc Real.log (5 / 2) * ((c + margin) * -Real.log c) ≤ 4 / 3 * Real.log 2 * (3757 / 10000) :=
          mul_le_mul factor slow grown (by linarith)
      _ ≤ 1022 * Real.log 2 * margin := by
        rw [margin_real]
        linarith

theorem lt_one_of_low (c : ℚ) (count : Nat) (low : c ^ count < leastNormal) : c < 1 := by
  by_contra grows
  linarith [one_le_pow₀ (n := count) (not_lt.mp grows), least_normal_lt_one]

theorem lost_le (c q : ℚ) (less : c < 1) (large : 2 * halfUnit ≤ q) :
    ((q + halfUnit / (1 - c) : ℚ) : ℝ) ≤ gain c * q := by
  have gap : 0 < 1 - c := sub_pos.mpr less
  have lost : halfUnit / (1 - c) ≤ 1 / (2 * (1 - c)) * q := by
    rw [div_mul_eq_mul_div, one_mul, div_le_div_iff₀ gap (by linarith)]
    have scaled := mul_le_mul_of_nonneg_right large gap.le
    linarith
  have lostReal := (Rat.cast_le (K := ℝ)).mpr lost
  push_cast at lostReal ⊢
  rw [gain_eq, one_add_mul]
  linarith

section Spread

variable (lo hi p : ℚ) (count : Nat) (spread : Spread lo hi count p)

include spread

theorem spread_low (alive : 2 * halfUnit ≤ p) (large : margin < lo) : (lo - margin) ^ count ≤ p := by
  have shorter : 0 < lo - margin := sub_pos.mpr large
  have positive : 0 < lo := margin_pos.trans large
  by_cases kept : lo ^ count ≤ p
  · exact (pow_le_pow_left₀ shorter.le (sub_le_self lo margin_pos.le) count).trans kept
  · have low : lo ^ count < leastNormal := lt_of_not_ge fun reached => kept (spread.kept reached)
    have less := lt_one_of_low lo count low
    have most := ((Rat.cast_le (K := ℝ)).mpr (sub_le_iff_le_add.mp (spread.above less))).trans
      (lost_le lo p less alive)
    have real : (0 : ℝ) < lo := Rat.cast_pos.mpr positive
    have lessReal : (lo : ℝ) < 1 := by exact_mod_cast less
    have factor : (0 : ℝ) < gain (lo : ℝ) := one_pos.trans_le (one_le_gain lo lessReal)
    have decay := rows_suffice lo _ lo count real lessReal (by exact_mod_cast low)
      ((gain_le lo real lessReal).trans (by rw [margin_real]; linarith [log_two_bounds.1]))
    have apart := powers_apart (lo - margin : ℚ) lo _ count (Rat.cast_pos.mpr shorter) real factor
      (by push_cast; rwa [sub_sub_cancel])
    rw [Rat.cast_pow] at most
    rw [← Rat.cast_le (K := ℝ), Rat.cast_pow]
    exact le_of_mul_le_mul_left (apart.trans most) factor

variable (positive : 0 < hi)

include positive

theorem spread_high_small (alive : 2 * halfUnit ≤ p) (low : p < leastNormal) (past : hi ^ count < leastNormal)
    (counted : 1 ≤ count) (half : hi ≤ 1 / 2) (sinks : hi ≤ 1 / 7 ∨ 2 * halfUnit ≤ hi ^ count) :
    p ≤ (hi + margin) ^ count := by
  have less := lt_one_of_low hi count past
  have gained := spread.below less
  have still : 0 ≤ hi ^ count := pow_nonneg positive.le count
  rcases counted.eq_or_lt with rfl | two
  · have tiny : margin = 1 / 2040 := rfl
    rw [pow_one]
    linarith [least_normal_le]
  · have most : p ≤ 5 / 2 * hi ^ count := by
      have gap : 0 < 1 - hi := sub_pos.mpr less
      have share (part : ℚ) (wide : 1 ≤ part * (1 - hi)) : halfUnit / (1 - hi) ≤ part * halfUnit := by
        rw [div_le_iff₀ gap, mul_right_comm]
        exact le_mul_of_one_le_left half_unit_pos.le wide
      rcases sinks with small | reached
      · linarith [share (7 / 6) (by linarith)]
      · linarith [share 2 (by linarith)]
    have halfReal := (Rat.cast_le (K := ℝ)).mpr half
    push_cast at halfReal
    have apart := small_factor hi count (Rat.cast_pos.mpr positive) halfReal two (by exact_mod_cast past)
    refine most.trans ?_
    rw [← Rat.cast_le (K := ℝ)]
    push_cast
    exact apart

theorem spread_high_large (past : hi ^ count < leastNormal) (half : 1 / 2 ≤ hi) (reached : 2 * halfUnit ≤ hi ^ count) :
    p ≤ (hi + margin) ^ count := by
  have less := lt_one_of_low hi count past
  have most := ((Rat.cast_le (K := ℝ)).mpr (spread.below less)).trans (lost_le hi _ less reached)
  have real : (0 : ℝ) < hi := Rat.cast_pos.mpr positive
  have lessReal : (hi : ℝ) < 1 := by exact_mod_cast less
  have halfReal := (Rat.cast_le (K := ℝ)).mpr half
  push_cast at halfReal
  have decay := rows_suffice hi _ _ count real lessReal (by exact_mod_cast past) (wide_gain_le hi halfReal lessReal)
  have apart := powers_apart hi (hi + margin) _ count real (add_pos real (Rat.cast_pos.mpr margin_pos))
    (one_pos.trans_le (one_le_gain hi lessReal)) (by rwa [add_sub_cancel_left])
  rw [← Rat.cast_le (K := ℝ)]
  refine most.trans ?_
  push_cast
  exact apart

theorem spread_high (alive : 2 * halfUnit ≤ p) (counted : 1 ≤ count)
    (sinks : p < leastNormal → hi ≤ 1 / 7 ∨ 2 * halfUnit ≤ hi ^ count) : p ≤ (hi + margin) ^ count := by
  by_cases kept : p ≤ hi ^ count
  · exact kept.trans (pow_le_pow_left₀ positive.le (le_add_of_nonneg_right margin_pos.le) count)
  · have low : p < leastNormal := lt_of_not_ge fun normal => kept (spread.normal normal)
    have past : hi ^ count < leastNormal := (not_le.mp kept).trans low
    rcases le_total hi (1 / 2) with small | large
    · exact spread_high_small lo hi p count spread positive alive low past counted small (sinks low)
    · have reached := (sinks low).resolve_left (by linarith)
      exact spread_high_large lo hi p count spread positive past large reached

end Spread

theorem rpow_near_one (w d : ℝ) (low : 1 / 2 ^ 20 ≤ w) (high : w ≤ 2 ^ 20) (small : |d| ≤ 4 / 2 ^ 53) :
    |w ^ (1 + d) - w| ≤ 1 / 2 ^ 26 := by
  have positive : 0 < w := (by positivity : (0 : ℝ) < 1 / 2 ^ 20).trans_le low
  have size : |Real.log w| ≤ 14 := by
    have least := Real.log_le_log (by positivity) low
    have most := Real.log_le_log positive high
    rw [one_div, Real.log_inv, Real.log_pow] at least
    rw [Real.log_pow] at most
    push_cast at least most
    exact abs_le.mpr ⟨by linarith [log_two_bounds.2], by linarith [log_two_bounds.2]⟩
  have part : |Real.log w * d| ≤ 14 * (4 / 2 ^ 53) := by
    rw [abs_mul]
    exact mul_le_mul size small (abs_nonneg d) (by norm_num)
  have near := Real.abs_exp_sub_one_le (part.trans (by norm_num))
  rw [Real.rpow_add positive, Real.rpow_one, Real.rpow_def_of_pos positive, ← mul_sub_one, abs_mul,
    abs_of_pos positive]
  calc w * |Real.exp (Real.log w * d) - 1| ≤ 2 ^ 20 * (2 * (14 * (4 / 2 ^ 53))) :=
        mul_le_mul high (near.trans (mul_le_mul_of_nonneg_left part zero_le_two)) (abs_nonneg _) (by positivity)
    _ ≤ 1 / 2 ^ 26 := by norm_num

section Root

variable (w p e : ℚ) (count : Nat) (low : 1 / 2 ^ 20 ≤ w) (high : w ≤ 2 ^ 20) (near : |e * count - 1| ≤ 4 / 2 ^ 53)

include low high near

theorem root_near : |((w : ℝ) ^ count) ^ (e : ℝ) - w| ≤ 1 / 2 ^ 26 := by
  have least := (Rat.cast_le (K := ℝ)).mpr low
  have most := (Rat.cast_le (K := ℝ)).mpr high
  have share := (Rat.cast_le (K := ℝ)).mpr near
  push_cast at least most share
  have close := rpow_near_one w (e * count - 1) least most share
  have turned : (e : ℝ) * count = count * e := by ring
  rwa [add_sub_cancel, turned, Real.rpow_natCast_mul ((by positivity : (0 : ℝ) ≤ 1 / 2 ^ 20).trans least)] at close

variable (positive : 0 < e)

include positive

theorem le_root (le : w ^ count ≤ p) : w - 1 / 2 ^ 26 ≤ (p : ℝ) ^ (e : ℝ) := by
  have bound := (abs_le.mp (root_near w e count low high near)).1
  have still : 0 ≤ w ^ count := pow_nonneg ((by positivity : (0 : ℚ) ≤ 1 / 2 ^ 20).trans low) count
  have raised := Real.rpow_le_rpow (Rat.cast_nonneg.mpr still) (Rat.cast_le.mpr le) (Rat.cast_pos.mpr positive).le
  rw [Rat.cast_pow] at raised
  linarith

theorem root_le (still : 0 ≤ p) (le : p ≤ w ^ count) : (p : ℝ) ^ (e : ℝ) ≤ w + 1 / 2 ^ 26 := by
  have bound := (abs_le.mp (root_near w e count low high near)).2
  have raised := Real.rpow_le_rpow (Rat.cast_nonneg.mpr still) (Rat.cast_le.mpr le) (Rat.cast_pos.mpr positive).le
  rw [Rat.cast_pow] at raised
  linarith

end Root

-- The root of a product of rows between two bounds, with room for the rounding of the root.
theorem root_within (lo hi p e : ℚ) (count : Nat) (positive : 0 < lo) (between : lo ≤ hi) (most : hi ≤ 1000000)
    (alive : 2 * halfUnit ≤ p) (spread : Spread (lowered lo) (raised hi) count p)
    (below : p ≤ (raised hi + margin) ^ count) (share : 0 < e) (near : |e * count - 1| ≤ 4 / 2 ^ 53) :
    (lo : ℝ) - 49999 / 100000000 + 1 / 2 ^ 32 ≤ (p : ℝ) ^ (e : ℝ) ∧
      (p : ℝ) ^ (e : ℝ) ≤ hi + 49999 / 100000000 - 1 / 2 ^ 32 := by
  have pPos : 0 < p := (mul_pos two_pos half_unit_pos).trans_le alive
  have tiny : margin = 1 / 2040 := rfl
  have wide : raised hi = hi * (1 + 1 / 2 ^ 52) := rfl
  have short : lowered lo = lo * (1 - 1 / 2 ^ 53) := rfl
  constructor
  · rcases lt_or_ge (lowered lo - margin) (1 / 2 ^ 20) with small | large
    · have still := Real.rpow_pos_of_pos (Rat.cast_pos (K := ℝ).mpr pPos) e
      have scant : lo ≤ 49999 / 100000000 - 1 / 2 ^ 32 := by linarith
      have scantReal := (Rat.cast_le (K := ℝ)).mpr scant
      push_cast at scantReal
      linarith
    · have kept := spread_low _ _ _ _ spread alive (by linarith)
      have lower := le_root _ _ e _ large (by linarith) near share kept
      have slack : lo - 49999 / 100000000 + 1 / 2 ^ 32 ≤ lowered lo - margin - 1 / 2 ^ 26 := by linarith
      have slackReal := (Rat.cast_le (K := ℝ)).mpr slack
      push_cast at lower slackReal
      linarith
  · have upper := root_le _ _ e _ (by linarith) (by linarith) near share pPos.le below
    have slack : raised hi + margin + 1 / 2 ^ 26 ≤ hi + 49999 / 100000000 - 1 / 2 ^ 32 := by linarith
    have slackReal := (Rat.cast_le (K := ℝ)).mpr slack
    push_cast at upper slackReal
    linarith

end Aggregation.Binary64
