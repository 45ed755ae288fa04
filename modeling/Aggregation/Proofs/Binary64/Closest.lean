import Mathlib
import Aggregation.Proofs.Binary64.Nearest

set_option autoImplicit false

namespace Aggregation.Binary64

open Standing

structure Neighbours (real : ℝ) (index : Nat) : Prop where
  below : ∀ before, index = before + 1 → (midpoint before : ℝ) ≤ 2 * real
  above : 2 * real ≤ midpoint index

section Neighbours

variable (real : ℝ) (index : Nat) (neighbours : Neighbours real index)

include neighbours

theorem neighbours_closest (other : Nat) : |real - units index| ≤ |real - units other| := by
  rcases lt_trichotomy other index with less | rfl | more
  · obtain ⟨before, rfl⟩ := Nat.exists_eq_add_of_lt less
    have below := neighbours.below (other + before) rfl
    have low : (units other : ℝ) ≤ units (other + before) :=
      Nat.cast_le.mpr (units_strict_mono.monotone (Nat.le_add_right _ _))
    rw [midpoint, Nat.cast_add] at below
    rw [abs_le]
    constructor
    · have reach := le_abs_self (real - units other)
      linarith
    · have up : (units (other + before) : ℝ) ≤ units (other + before + 1) :=
        Nat.cast_le.mpr (units_strict_mono.monotone (Nat.le_succ _))
      have reach := le_abs_self (real - units other)
      linarith
  · exact le_refl _
  · have above := neighbours.above
    have high : (units (index + 1) : ℝ) ≤ units other :=
      Nat.cast_le.mpr (units_strict_mono.monotone more)
    have up : (units index : ℝ) ≤ units (index + 1) :=
      Nat.cast_le.mpr (units_strict_mono.monotone (Nat.le_succ _))
    have reach := neg_abs_le (real - units other)
    rw [midpoint, Nat.cast_add] at above
    rw [abs_le]
    constructor <;> linarith

theorem neighbours_relative (normal : binade ≤ index) : |real - units index| ≤ units index / 2 ^ 53 := by
  obtain ⟨before, rfl⟩ := Nat.exists_eq_succ_of_ne_zero (binade_pos.trans_le normal).ne'
  have below := neighbours.below before rfl
  have above := neighbours.above
  have up := units_strict_mono (Nat.lt_succ_self before)
  have further := units_strict_mono (Nat.lt_succ_self before.succ)
  have mono := spacing_mono before
  have spacing : (binade * (units (before + 2) - units (before + 1)) : ℝ) ≤ units (before + 1) := by
    rw [← Nat.cast_sub further.le]
    exact_mod_cast spacing_le _ normal
  have shorter : (units (before + 1) - units before : ℝ) ≤ units (before + 2) - units (before + 1) := by
    rw [← Nat.cast_sub up.le, ← Nat.cast_sub further.le]
    exact_mod_cast mono
  rw [show (binade : ℝ) = 2 ^ 52 by exact_mod_cast (show binade = 2 ^ 52 by decide)] at spacing
  rw [midpoint, Nat.cast_add] at below above
  rw [abs_le, Nat.succ_eq_add_one]
  constructor <;> linarith

end Neighbours

theorem nearest_index_neighbours (side : Nat → Ordering) (real : ℝ) (measures : Measures side (2 * real))
    (inside : nearestIndex side < finiteCount) : Neighbours real (nearestIndex side) := by
  have turns := partition_point_turns (passes side) finiteCount
  constructor
  · intro before same
    have passed := (passes_iff side _ measures before).mp (turns.before before same)
    rcases passed with less | ⟨equal, _⟩
    · exact less.le
    · exact equal.le
  · have stopped := turns.here inside
    rw [Bool.eq_false_iff, ne_eq, passes_iff side _ measures] at stopped
    exact not_lt.mp fun past => stopped (.inl past)

theorem abs_value (negative : Bool) (index : Nat) : |value negative index| * unitsInOne = units index := by
  rw [value_eq_units, abs_div, abs_of_pos unit_rat_pos, div_mul_cancel₀ _ unit_rat_pos.ne', ← Int.cast_abs,
    Int.abs_eq_natAbs, nat_abs_signed, Int.cast_natCast]

theorem units_binade : units binade = binade := by
  rw [← Nat.mul_one binade, ← Nat.zero_add 1, units_power, Nat.pow_zero]

-- From here on the spacing of doubles is in proportion to them.
def leastNormal : ℚ := binade / unitsInOne

theorem least_normal_pos : 0 < leastNormal :=
  div_pos (Nat.cast_pos.mpr binade_pos) unit_rat_pos

theorem normal_index (negative : Bool) (index : Nat) :
    leastNormal ≤ |value negative index| ↔ binade ≤ index := by
  rw [leastNormal, div_le_iff₀ unit_rat_pos, abs_value, Nat.cast_le]
  conv_lhs => rw [← units_binade]
  exact units_strict_mono.le_iff_le

section Rounded

variable (q r : ℚ) (same : rounded q = ofRat r)

include same

theorem rounded_neighbours : ∃ negative index, index < finiteCount ∧ r = value negative index ∧
    Neighbours (|q| * unitsInOne : ℚ) index ∧ |q - r| * unitsInOne = |(|q| * unitsInOne) - units index| := by
  have unit := unit_rat_pos
  have parts : |q| = q.num.natAbs / q.den := by
    conv_lhs => rw [← q.num_div_den]
    rw [abs_div, Nat.abs_cast, Nat.cast_natAbs, Int.cast_abs]
  rw [rounded, ofRatio, ofIndex] at same
  split at same
  next inside =>
    refine ⟨_, _, inside, (of_rat_strict_mono.injective same).symm, ?_, ?_⟩
    · refine nearest_index_neighbours _ _ ?_ inside
      have measures := measures_quotient (q.num.natAbs * unitsInOne) q.den q.den_pos
      have real : (2 * ((q.num.natAbs * unitsInOne : Nat) : ℝ) / q.den) = 2 * ((|q| * unitsInOne : ℚ) : ℝ) := by
        rw [parts]
        push_cast
        ring
      rwa [real] at measures
    · rw [← of_rat_strict_mono.injective same, value_eq_units, signed_cast, ← abs_of_pos unit, ← abs_mul,
        abs_of_pos unit]
      rcases lt_or_ge q 0 with negative | positive
      · rw [decide_eq_true (Rat.num_neg.mpr negative), if_pos rfl, abs_of_neg negative, ← abs_neg]
        congr 1
        field_simp
        ring
      · rw [decide_eq_false (Rat.num_nonneg.mpr positive).not_gt, if_neg Bool.false_ne_true, abs_of_nonneg positive]
        congr 1
        field_simp
  next outside =>
    obtain ⟨_, _, wrong, _⟩ := finite_of_standing _ r same
    cases wrong

theorem rounded_closest (y : Binary64) (p : ℚ) (exact_y : y.standing = ofRat p) : |q - r| ≤ |q - p| := by
  obtain ⟨_, index, _, _, neighbours, distance⟩ := rounded_neighbours q r same
  obtain ⟨negative, other, _, rfl⟩ := finite_of_standing y p exact_y
  have closest : |(|q| * unitsInOne) - units index| ≤ |(|q| * unitsInOne : ℚ) - units other| := by
    exact_mod_cast neighbours_closest _ index neighbours other
  refine le_of_mul_le_mul_right ?_ unit_rat_pos
  calc |q - r| * unitsInOne ≤ |(|q| * unitsInOne) - |value negative other| * unitsInOne| := by
        rwa [distance, abs_value]
    _ = |(|q| - |value negative other|)| * unitsInOne := by rw [← sub_mul, abs_mul, abs_of_pos unit_rat_pos]
    _ ≤ |q - value negative other| * unitsInOne :=
        mul_le_mul_of_nonneg_right (abs_abs_sub_abs_le _ _) unit_rat_pos.le

theorem rounded_relative (normal : leastNormal ≤ |r|) : |q - r| ≤ |r| / 2 ^ 53 := by
  obtain ⟨negative, index, _, rfl, neighbours, distance⟩ := rounded_neighbours q r same
  have near := neighbours_relative _ index neighbours ((normal_index negative index).mp normal)
  refine le_of_mul_le_mul_right ?_ unit_rat_pos
  rw [distance, div_mul_eq_mul_div, abs_value, ← Rat.cast_le (K := ℝ)]
  push_cast
  exact_mod_cast near

end Rounded

theorem standing_of_multiple (n : Int) (places : Nat) (bound : |n| ≤ 2 ^ 53) (few : places ≤ unitPlaces) :
    ∃ x : Binary64, x.standing = ofRat (n / 2 ^ places) := by
  have small : n.natAbs ≤ 2 ^ 53 := by
    rw [Int.abs_eq_natAbs] at bound
    exact_mod_cast bound
  obtain ⟨x, exact_x⟩ := standing_of_scaled n.natAbs places small few
  rcases Int.natAbs_eq n with positive | negative
  · rw [positive]
    exact ⟨x, exact_x⟩
  · rw [negative, Int.cast_neg, neg_div]
    exact ⟨-x, neg_exact x _ exact_x⟩

theorem rounded_near (q : ℚ) (places : Nat) (few : places ≤ unitPlaces) (bound : |q| * 2 ^ places ≤ 2 ^ 53) :
    ∃ r, rounded q = ofRat r ∧ |q - r| ≤ 1 / 2 ^ (places + 1) := by
  have scale : (0 : ℚ) < 2 ^ places := pow_pos two_pos _
  have most := (le_div_iff₀ scale).mpr bound
  obtain ⟨x, top⟩ := standing_of_scaled (2 ^ 53) places (le_refl _) few
  rw [Nat.cast_pow, Nat.cast_ofNat] at top
  have fixes := rounded_exact x _ top
  -- Between the greatest of those multiples and its negative, what is rounded stays finite.
  obtain ⟨r, _, same⟩ := rounded_between (ofRatio (q.num < 0) q.num.natAbs q.den) _ q _ _ _ rfl
    (neg_rounded _ _ fixes) fixes (Set.Icc_subset_uIcc (abs_le.mp most))
  refine ⟨r, same, ?_⟩
  have near := abs_sub_round (q * 2 ^ places)
  have inside : |round (q * 2 ^ places)| ≤ 2 ^ 53 := by
    rw [← abs_of_pos scale, ← abs_mul, abs_le] at bound
    rw [abs_le] at near ⊢
    constructor
    · have low : (-2 ^ 53 - 1 : ℚ) < round (q * 2 ^ places) := by linarith
      have whole : -2 ^ 53 - 1 < round (q * 2 ^ places) := by exact_mod_cast low
      omega
    · have high : (round (q * 2 ^ places) : ℚ) < 2 ^ 53 + 1 := by linarith
      have whole : round (q * 2 ^ places) < 2 ^ 53 + 1 := by exact_mod_cast high
      omega
  obtain ⟨y, exact_y⟩ := standing_of_multiple _ places inside few
  refine (rounded_closest q r same y _ exact_y).trans ?_
  calc |q - round (q * 2 ^ places) / 2 ^ places| = |q * 2 ^ places - round (q * 2 ^ places)| / 2 ^ places := by
        rw [← abs_of_pos scale, ← abs_div, abs_of_pos scale, sub_div, mul_div_cancel_right₀ _ scale.ne']
    _ ≤ 1 / 2 / 2 ^ places := div_le_div_of_nonneg_right near scale.le
    _ = 1 / 2 ^ (places + 1) := by rw [div_div, pow_succ']

theorem multiple_of_standing (x : Binary64) (q : ℚ) (places : Nat) (exact_x : x.standing = ofRat q)
    (few : places ≤ unitPlaces) (large : 2 ^ 52 ≤ |q| * 2 ^ places) : ∃ n : ℤ, q = n / 2 ^ places := by
  obtain ⟨negative, index, rfl, rfl⟩ := finite_of_standing x q exact_x
  have unit : (unitsInOne : ℚ) = 2 ^ (unitPlaces - places) * 2 ^ places := by
    rw [units_in_one_cast, ← pow_add, Nat.sub_add_cancel few]
  have scale : (0 : ℚ) < 2 ^ (unitPlaces - places) := pow_pos two_pos _
  have magnitude := abs_value negative index
  have reaches : (binade * 2 ^ (unitPlaces - places) : ℚ) ≤ units index := by
    rw [← magnitude, unit, Rat.mul_comm (2 ^ (unitPlaces - places)), ← mul_assoc]
    refine mul_le_mul_of_nonneg_right (le_trans (le_of_eq ?_) large) scale.le
    exact_mod_cast (show binade = 2 ^ 52 by decide)
  obtain ⟨m, found⟩ := units_multiple index (unitPlaces - places) (by exact_mod_cast reaches)
  refine ⟨signed negative m, ?_⟩
  rw [value_eq_units, found, Nat.mul_comm, signed_mul, unit]
  push_cast
  field_simp

theorem fixed_multiple (q : ℚ) (n : ℤ) (places : Nat) (parts : q * 2 ^ places = n) (bound : |n| ≤ 2 ^ 53)
    (few : places ≤ unitPlaces) : rounded q = ofRat q := by
  obtain ⟨x, exact_x⟩ := standing_of_multiple n places bound few
  rw [← parts, mul_div_cancel_right₀ _ (pow_ne_zero _ two_ne_zero)] at exact_x
  exact rounded_exact x _ exact_x

section Fixed

variable (q r c : ℚ) (same : rounded q = ofRat r) (fixed : rounded c = ofRat c)

include same fixed

theorem stays_below (le : q ≤ c) : r ≤ c := by
  rw [← of_rat_strict_mono.le_iff_le, ← same, ← fixed]
  exact rounded_mono le

theorem stays_above (le : c ≤ q) : c ≤ r := by
  rw [← of_rat_strict_mono.le_iff_le, ← same, ← fixed]
  exact rounded_mono le

theorem size_stays_below (le : |q| ≤ c) : |r| ≤ c := by
  obtain ⟨low, high⟩ := abs_le.mp le
  exact abs_le.mpr ⟨stays_above _ _ _ same (neg_rounded _ _ fixed) low, stays_below _ _ _ same fixed high⟩

theorem size_stays_above (le : c ≤ |q|) : c ≤ |r| := by
  rcases le_abs.mp le with above | below
  · exact (stays_above _ _ _ same fixed above).trans (le_abs_self r)
  · have under := stays_below _ _ _ same (neg_rounded _ _ fixed) (le_neg.mp below)
    exact (le_neg.mp under).trans (neg_le_abs r)

end Fixed

theorem top_fixed : rounded (2 ^ 64) = ofRat (2 ^ 64) := by
  refine rounded_exact (finite false ⟨1087 * binade, by decide⟩) _ ?_
  change ofRat (value false (1087 * binade)) = _
  rw [value, show binade = 2 ^ 52 by decide]
  norm_num

theorem least_normal_le : leastNormal ≤ 1 / 2 ^ 64 := by
  rw [leastNormal, div_le_div_iff₀ unit_rat_pos (pow_pos two_pos _), one_mul]
  exact_mod_cast (show binade * 2 ^ 64 ≤ unitsInOne by decide)

theorem rounded_moderate (q : ℚ) (low : 1 / 2 ^ 64 ≤ |q|) (high : |q| ≤ 2 ^ 64) :
    ∃ r, rounded q = ofRat r ∧ |q - r| ≤ |r| / 2 ^ 53 := by
  obtain ⟨below, above⟩ := abs_le.mp high
  obtain ⟨r, _, same⟩ := rounded_between (ofRatio (q.num < 0) q.num.natAbs q.den) _ q _ _ _ rfl
    (neg_rounded _ _ top_fixed) top_fixed (Set.Icc_subset_uIcc ⟨below, above⟩)
  have bottom := fixed_multiple (1 / 2 ^ 64) 1 64 (by norm_num) (by norm_num) (by decide)
  have reached := size_stays_above _ _ _ same bottom low
  exact ⟨r, same, rounded_relative q r same (least_normal_le.trans reached)⟩

def Nearest (q : ℚ) (x : Binary64) : Prop :=
  ∃ r, x.standing = ofRat r ∧ ∀ (y : Binary64) (p : ℚ), y.standing = ofRat p → |q - r| ≤ |q - p|

theorem nearest_of_rounded (q r : ℚ) (x : Binary64) (stands : x.standing = rounded q) (same : rounded q = ofRat r) :
    Nearest q x :=
  ⟨r, stands.trans same, rounded_closest q r same⟩

theorem of_ratio_rounded (negative : Bool) (num den : Nat) (positive : 0 < den) :
    (ofRatio negative num den).standing = rounded (signed negative num / den : ℚ) := by
  have unit : (unitsInOne : ℚ) ≠ 0 := Nat.cast_ne_zero.mpr units_in_one_pos.ne'
  have same := of_units_rounded negative (num * unitsInOne) den positive
  rwa [signed_mul, Int.cast_mul, Int.cast_natCast, mul_div_mul_right _ _ unit] at same

end Aggregation.Binary64
