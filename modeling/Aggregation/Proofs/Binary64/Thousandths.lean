import Mathlib
import Aggregation.Moments
import Aggregation.Proofs.Binary64.Closest
import Aggregation.Proofs.Binary64.Follows
import Aggregation.Proofs.Binary64.Integers

set_option autoImplicit false

namespace Aggregation.Binary64

open Standing

theorem clamp_to_int (n : Int) : (Word.clamp n).toInt = max Word.least (min Word.greatest n) := by
  rw [Word.clamp]
  apply Int64.toInt_ofInt_of_le <;> simp only [Word.least, Word.greatest] <;> omega

theorem word_within (n : Int64) : Word.least ≤ n.toInt ∧ n.toInt ≤ Word.greatest := by
  have low := n.le_toInt
  have high := n.toInt_lt
  rw [Word.least, Word.greatest]
  omega

theorem le_floor_word_iff (n : Int64) (x : Binary64) (number : x ≠ .nan) (later : Word.least < n.toInt) :
    n.toInt ≤ x.floorWord.toInt ↔ ofRat n.toInt ≤ x.standing := by
  obtain ⟨_, high⟩ := word_within n
  cases x with
  | nan => exact absurd rfl number
  | infinity negative =>
      rw [floorWord, clamp_to_int]
      cases negative with
      | true =>
          rw [if_pos rfl]
          exact ⟨fun le => by omega, fun le => absurd le (infinite_lt_rat _).not_ge⟩
      | false =>
          rw [if_neg Bool.false_ne_true]
          exact ⟨fun _ => (rat_lt_infinite _).le, fun _ => by omega⟩
  | finite negative index =>
      have unit : (0 : Int) < unitsInOne := Int.natCast_pos.mpr units_in_one_pos
      rw [floorWord, clamp_to_int, standing, of_rat_strict_mono.le_iff_le, value_eq_units, le_div_iff₀ unit_rat_pos]
      have floor := Int.le_ediv_iff_mul_le unit (a := n.toInt) (b := signed negative (units index.val))
      have cast : ((n.toInt : ℚ) * unitsInOne ≤ signed negative (units index.val)) ↔
          n.toInt * unitsInOne ≤ signed negative (units index.val) := by exact_mod_cast Iff.rfl
      rw [cast, ← floor]
      omega

theorem floor_word_mono (x y : Binary64) (le : x.atMost y = true) : x.floorWord.toInt ≤ y.floorWord.toInt := by
  have left := at_most_number_left x y le
  have right := at_most_number x y le
  rw [at_most_iff x y right] at le
  rcases (word_within x.floorWord).1.eq_or_lt with least | later
  · rw [← least]
    exact (word_within y.floorWord).1
  · rw [le_floor_word_iff _ y right later]
    exact ((le_floor_word_iff _ x left later).mp (le_refl _)).trans le

def thousandths (x : Binary64) : Int :=
  (x * ofNat 1000 + ofDecimal false ⟨5, -1⟩).floorWord.toInt

theorem to_thousandths_eq (x : Binary64) : x.toThousandths = ofInt x.thousandths / ofNat 1000 := rfl

theorem thousand_standing : (ofNat 1000).standing = ofRat 1000 := by
  exact_mod_cast of_nat_standing 1000 (by norm_num)

theorem half_standing : (ofDecimal false ⟨5, -1⟩).standing = ofRat (1 / 2) := by
  obtain ⟨x, exact_x⟩ := standing_of_scaled 1 1 (by norm_num) (by decide)
  have half : ((signed false 5 : ℤ) : ℚ) / (10 : ℕ) = 1 / 2 := by norm_num
  have one : ((1 : ℕ) : ℚ) / 2 ^ 1 = 1 / 2 := by norm_num
  rw [one] at exact_x
  have ratio := of_ratio_rounded false 5 10 (by norm_num)
  rw [half, rounded_exact x _ exact_x] at ratio
  exact ratio

theorem of_int_rounded (n : Int) : (ofInt n).standing = rounded n := by
  have ratio := of_ratio_rounded (n < 0) n.natAbs 1 Nat.one_pos
  rwa [signed_nat_abs, Nat.cast_one, div_one] at ratio

theorem thousandths_mono (x y : Binary64) (le : x.atMost y = true) : x.thousandths ≤ y.thousandths := by
  have scaled := follows_mono _ _ (follows_mul _ 1000 thousand_standing (by norm_num))
    (fun p q le => mul_le_mul_of_nonneg_right le (by norm_num)) x y le
  exact floor_word_mono _ _
    (follows_mono _ _ (follows_add _ _ half_standing) (fun p q le => add_le_add_left le _) _ _ scaled)

theorem of_int_mono (m n : Int) (le : m ≤ n) : (ofInt m).atMost (ofInt n) = true := by
  have stands := of_int_rounded n
  rw [at_most_iff _ _ (rounds_number _ _ (rounds_of_rounded _ _ stands)), stands, of_int_rounded]
  exact rounded_mono (Int.cast_le.mpr le)

theorem to_thousandths_mono (x y : Binary64) (le : x.atMost y = true) :
    x.toThousandths.atMost y.toThousandths = true :=
  follows_mono _ _ (follows_div _ 1000 thousand_standing (by norm_num))
    (fun p q le => div_le_div_of_nonneg_right le (by norm_num)) _ _ (of_int_mono _ _ (thousandths_mono x y le))

theorem thousandths_or_zero (x : Binary64) : x.orZero.thousandths = x.thousandths := by
  cases x with
  | nan => decide +kernel
  | infinity negative => rfl
  | finite negative index => rfl

theorem to_thousandths_or_zero (x : Binary64) : x.orZero.toThousandths = x.toThousandths := by
  rw [to_thousandths_eq, thousandths_or_zero, ← to_thousandths_eq]

theorem to_thousandths_infinite (negative : Bool) :
    (toThousandths (.infinity negative)).standing = ofRat (if negative then -9223372036854776 else 9223372036854776) := by
  have form : toThousandths (.infinity negative) = finite negative ⟨0x4340624dd2f1a9fc, by decide⟩ := by
    cases negative <;> decide +kernel
  rw [form, standing, value]
  cases negative <;> norm_num

theorem to_thousandths_within (x : Binary64) :
    ∃ r, x.toThousandths.standing = ofRat r ∧ |r| ≤ 9223372036854776 := by
  have number := or_zero_number x
  have low := to_thousandths_mono _ _ (infinite_at_most _ number)
  have high := to_thousandths_mono _ _ (at_most_infinite _ number)
  rw [to_thousandths_or_zero] at low high
  rw [at_most_iff _ _ (at_most_number _ _ low), to_thousandths_infinite, if_pos rfl] at low
  rw [at_most_iff _ _ (at_most_number _ _ high), to_thousandths_infinite, if_neg Bool.false_ne_true] at high
  obtain ⟨r, inside, stands⟩ := between_finite _ _ _ (Set.Icc_subset_uIcc ⟨low, high⟩)
  rw [Set.uIcc_of_le (by norm_num), Set.mem_Icc, ← abs_le] at inside
  exact ⟨r, stands, inside⟩

theorem to_thousandths_number (x : Binary64) : x.toThousandths ≠ .nan := by
  obtain ⟨r, stands, _⟩ := to_thousandths_within x
  intro lost
  rw [lost] at stands
  cases stands

theorem thousandths_sum_mono (x a b : Binary64) (le : a.atMost b = true) :
    (x + a).toThousandths.atMost (x + b).toThousandths = true := by
  have mono := to_thousandths_mono _ _ (add_or_zero_mono x a b le)
  rwa [to_thousandths_or_zero, to_thousandths_or_zero] at mono

theorem floor_word_exact (x : Binary64) (z : ℚ) (exact_x : x.standing = ofRat z)
    (small : |(⌊z⌋ : ℚ)| ≤ 2 ^ 63 - 1) : x.floorWord.toInt = ⌊z⌋ := by
  have whole : |⌊z⌋| ≤ 2 ^ 63 - 1 := by exact_mod_cast small
  obtain ⟨low, high⟩ := abs_le.mp whole
  obtain ⟨negative, index, rfl, rfl⟩ := finite_of_standing x z exact_x
  rw [value_eq_units, Rat.floor_intCast_div_natCast] at low high ⊢
  rw [floorWord, clamp_to_int, Word.least, Word.greatest]
  omega

theorem thousandths_whole (x : Binary64) (q y z : ℚ) (exact_x : x.standing = ofRat q)
    (scaled : rounded (1000 * q) = ofRat y) (raised : rounded (y + 1 / 2) = ofRat z)
    (small : |(⌊z⌋ : ℚ)| ≤ 2 ^ 63 - 1) : x.thousandths = ⌊z⌋ := by
  have product := mul_rounded x _ q 1000 exact_x thousand_standing
  rw [Rat.mul_comm q, scaled] at product
  have sum := add_rounded _ _ y (1 / 2) product half_standing
  rw [raised] at sum
  exact floor_word_exact _ z sum small

theorem sizes_near (p q e : ℚ) (near : |p - q| ≤ e) : |q| ≤ |p| + e ∧ |p| ≤ |q| + e := by
  have left := abs_sub_abs_le_abs_sub p q
  have right := abs_sub_abs_le_abs_sub q p
  rw [abs_sub_comm] at right
  exact ⟨by linarith, by linarith⟩

theorem whole_within (n c : ℤ) (near : |(n : ℚ)| < c + 1) : |n| ≤ c := by
  have next : |n| < c + 1 := by exact_mod_cast near
  exact Int.lt_add_one_iff.mp next

theorem thousand_size (q : ℚ) : |1000 * q| = 1000 * |q| := by
  rw [abs_mul, abs_of_pos (by norm_num : (0 : ℚ) < 1000)]

theorem thousandth_size (q : ℚ) : |q / 1000| = |q| / 1000 := by
  rw [abs_div, abs_of_pos (by norm_num : (0 : ℚ) < 1000)]

theorem half_integer_tie : rounded (2 ^ 52 + 1 / 2) = ofRat (2 ^ 52) := by
  have tie : ofRatio false 9007199254740993 2 = .ofBits 0x4330000000000000 := by decide +kernel
  have whole : ofNat 4503599627370496 = .ofBits 0x4330000000000000 := by decide +kernel
  have left := of_ratio_rounded false 9007199254740993 2 two_pos
  have right := of_nat_standing 4503599627370496 (by norm_num)
  rw [tie, ← whole, right] at left
  norm_num at left ⊢
  exact left.symm

theorem floor_half_fine (y : ℚ) (small : |y| < 2 ^ 51) :
    ∃ z, rounded (y + 1 / 2) = ofRat z ∧ |⌊z⌋ - y| ≤ 5 / 8 := by
  obtain ⟨below, above⟩ := abs_lt.mp small
  rcases le_or_gt (y + 1 / 2) (2 ^ 51) with inside | past
  · have bound : |y + 1 / 2| ≤ 2 ^ 51 := abs_le.mpr ⟨by linarith, inside⟩
    obtain ⟨z, same, near⟩ := rounded_near (y + 1 / 2) 2 (by decide) (by linarith)
    obtain ⟨left, right⟩ := abs_le.mp near
    have under := Int.floor_le z
    have next := Int.lt_floor_add_one z
    exact ⟨z, same, abs_le.mpr ⟨by linarith, by linarith⟩⟩
  · have bottom := fixed_multiple (2 ^ 51) (2 ^ 51) 0 (by norm_num) (by norm_num) (by decide)
    have top := fixed_multiple (2 ^ 51 + 1 / 2) (2 ^ 52 + 1) 1 (by norm_num) (by norm_num) (by decide)
    obtain ⟨z, within, same⟩ := rounded_between (ofRatio ((y + 1 / 2).num < 0) (y + 1 / 2).num.natAbs (y + 1 / 2).den)
      _ (y + 1 / 2) _ _ _ rfl bottom top (Set.Icc_subset_uIcc ⟨past.le, by linarith⟩)
    rw [Set.uIcc_of_le (by norm_num)] at within
    have whole : ⌊z⌋ = 2 ^ 51 := by
      rw [Int.floor_eq_iff]
      push_cast
      exact ⟨within.1, by linarith [within.2]⟩
    refine ⟨z, same, ?_⟩
    rw [whole, abs_le]
    push_cast
    exact ⟨by linarith, by linarith⟩

-- From 2^51 on the double is a multiple of a half, and adding another is exact, but for the last.
theorem floor_half_coarse (y : ℚ) (fixed : rounded y = ofRat y) (large : 2 ^ 51 ≤ |y|) (small : |y| ≤ 2 ^ 52) :
    ∃ z, rounded (y + 1 / 2) = ofRat z ∧ |⌊z⌋ - y| ≤ 1 / 2 := by
  obtain ⟨x, exact_x⟩ : ∃ x : Binary64, x.standing = ofRat y := ⟨_, fixed⟩
  obtain ⟨n, half⟩ := multiple_of_standing x y 1 exact_x (by decide) (by linarith)
  rw [pow_one] at half
  obtain ⟨below, above⟩ := abs_le.mp small
  rcases above.eq_or_lt with rfl | under
  · refine ⟨2 ^ 52, half_integer_tie, ?_⟩
    have whole : ⌊(2 ^ 52 : ℚ)⌋ = 2 ^ 52 := by norm_num
    rw [whole]
    norm_num
  · have room : |n + 1| ≤ 2 ^ 53 := by
      apply whole_within
      push_cast
      exact abs_lt.mpr ⟨by linarith, by linarith⟩
    have sum : (y + 1 / 2) * 2 ^ 1 = (n + 1 : ℤ) := by
      rw [half]
      push_cast
      ring
    have left := Int.floor_le (y + 1 / 2)
    have right := Int.lt_floor_add_one (y + 1 / 2)
    exact ⟨_, fixed_multiple _ _ 1 sum room (by decide), abs_le.mpr ⟨by linarith, by linarith⟩⟩

-- Below 2^51 the scaled double is off by an eighth at most and the sum by another; from there on the
-- scaled double is off by up to a quarter, but the sum is exact.
theorem scaled_half_near (p y : ℚ) (small : |p| ≤ 2 ^ 52) (scaled : rounded p = ofRat y) :
    ∃ z, rounded (y + 1 / 2) = ofRat z ∧ |⌊z⌋ - p| ≤ 3 / 4 := by
  have middle := fixed_multiple (2 ^ 51) (2 ^ 51) 0 (by norm_num) (by norm_num) (by decide)
  have top := fixed_multiple (2 ^ 52) (2 ^ 52) 0 (by norm_num) (by norm_num) (by decide)
  have through (z : ℚ) := abs_sub_le (⌊z⌋ : ℚ) y p
  rcases lt_or_ge |y| (2 ^ 51) with fine | coarse
  · have low : |p| < 2 ^ 51 := lt_of_not_ge fun reached => (size_stays_above _ _ _ scaled middle reached).not_gt fine
    obtain ⟨r, same, near⟩ := rounded_near p 2 (by decide) (by linarith)
    obtain rfl := of_rat_strict_mono.injective (scaled.symm.trans same)
    rw [abs_sub_comm] at near
    obtain ⟨z, sum, half⟩ := floor_half_fine y fine
    exact ⟨z, sum, by linarith [through z]⟩
  · obtain ⟨r, same, near⟩ := rounded_near p 1 (by decide) (by linarith)
    obtain rfl := of_rat_strict_mono.injective (scaled.symm.trans same)
    rw [abs_sub_comm] at near
    have bound := size_stays_below _ _ _ scaled top small
    obtain ⟨z, sum, half⟩ := floor_half_coarse y (rounded_again _ y scaled) coarse bound
    exact ⟨z, sum, by linarith [through z]⟩

theorem thousandths_near (x : Binary64) (q : ℚ) (exact_x : x.standing = ofRat q)
    (small : 1000 * |q| ≤ 2 ^ 52) : |x.thousandths - 1000 * q| ≤ 3 / 4 := by
  rw [← thousand_size] at small
  obtain ⟨y, scaled, _⟩ := rounded_near (1000 * q) 1 (by decide) (by linarith)
  obtain ⟨z, raised, near⟩ := scaled_half_near _ y small scaled
  obtain ⟨_, size⟩ := sizes_near _ _ _ near
  rwa [thousandths_whole x q y z exact_x scaled raised (by linarith)]

theorem to_thousandths_rounded (x : Binary64) (n : ℤ) (same : x.thousandths = n) (small : |n| ≤ 2 ^ 53) :
    x.toThousandths.standing = rounded (n / 1000) := by
  have whole := of_int_rounded n
  rw [fixed_multiple n n 0 (by rw [pow_zero, mul_one]) small (Nat.zero_le _)] at whole
  rw [to_thousandths_eq, same]
  exact div_rounded _ _ n 1000 whole thousand_standing (by norm_num)

theorem to_thousandths_fine (x : Binary64) (q d : ℚ) (n : ℤ) (places : Nat) (near : |n - 1000 * q| ≤ d)
    (quotient : x.toThousandths.standing = rounded (n / 1000)) (few : places ≤ unitPlaces)
    (bound : |(n / 1000 : ℚ)| * 2 ^ places ≤ 2 ^ 53) :
    ∃ r, x.toThousandths.standing = ofRat r ∧ |r - q| ≤ d / 1000 + 1 / 2 ^ (places + 1) := by
  obtain ⟨r, stands, closer⟩ := rounded_near (n / 1000) places few bound
  obtain ⟨left, right⟩ := abs_le.mp near
  obtain ⟨under, above⟩ := abs_le.mp closer
  exact ⟨r, quotient.trans stands, abs_le.mpr ⟨by linarith, by linarith⟩⟩

-- From 2^42 on doubles are no closer to each other than 2^-10: the quotient stays between the neighbours.
theorem to_thousandths_coarse (x : Binary64) (q : ℚ) (n : ℤ) (exact_x : x.standing = ofRat q)
    (near : |n - 1000 * q| ≤ 3 / 4) (quotient : x.toThousandths.standing = rounded (n / 1000))
    (large : 2 ^ 42 ≤ |q|) (small : 1000 * |q| ≤ 2 ^ 52) :
    ∃ r, x.toThousandths.standing = ofRat r ∧ |r - q| ≤ 1 / 2 ^ 10 := by
  obtain ⟨left, right⟩ := abs_le.mp near
  obtain ⟨m, parts⟩ := multiple_of_standing x q 10 exact_x (by decide) (by linarith)
  have exact_m : q * 2 ^ 10 = m := by
    rw [parts, div_mul_cancel₀ _ (by norm_num)]
  have room (step : ℤ) (unit : |step| = 1) : |m + step| ≤ 2 ^ 53 := by
    have size : |(m : ℚ)| < (2 ^ 53 - 2 : ℤ) + 1 := by
      rw [← exact_m, abs_mul, abs_of_pos (by norm_num : (0 : ℚ) < 2 ^ 10)]
      norm_num
      linarith
    have whole := whole_within m _ size
    have apart := abs_add_le m step
    omega
  have before := fixed_multiple (q - 1 / 2 ^ 10) (m + -1) 10 (by push_cast; linarith) (room _ rfl) (by decide)
  have after := fixed_multiple (q + 1 / 2 ^ 10) (m + 1) 10 (by push_cast; linarith) (room _ rfl) (by decide)
  obtain ⟨r, inside, stands⟩ := rounded_between _ _ _ _ _ _ quotient before after
    (Set.Icc_subset_uIcc ⟨by linarith, by linarith⟩)
  rw [Set.uIcc_of_le (by linarith)] at inside
  obtain ⟨under, above⟩ := inside
  exact ⟨r, stands, abs_le.mpr ⟨by linarith, by linarith⟩⟩

theorem to_thousandths_near (x : Binary64) (q : ℚ) (exact_x : x.standing = ofRat q)
    (small : 1000 * |q| ≤ 2 ^ 52) : ∃ r, x.toThousandths.standing = ofRat r ∧ |r - q| ≤ 1 / 1000 := by
  have near := thousandths_near x q exact_x small
  generalize same : x.thousandths = n at near
  obtain ⟨_, size⟩ := sizes_near _ _ _ near
  rw [thousand_size] at size
  have bound : |n| ≤ 2 ^ 53 := by
    apply whole_within
    push_cast
    linarith
  have quotient := to_thousandths_rounded x n same bound
  rcases le_or_gt |q| (2 ^ 42) with fine | coarse
  · have inside : |n| ≤ 1000 * 2 ^ 42 := by
      apply whole_within
      push_cast
      linarith
    have exact_inside : |(n : ℚ)| ≤ 1000 * 2 ^ 42 := by exact_mod_cast inside
    obtain ⟨r, stands, closer⟩ := to_thousandths_fine x q _ n 11 near quotient (by decide) (by
      rw [thousandth_size]
      linarith)
    exact ⟨r, stands, by linarith⟩
  · obtain ⟨r, stands, closer⟩ := to_thousandths_coarse x q n exact_x near quotient coarse.le small
    exact ⟨r, stands, by linarith⟩

theorem thousandths_small (x : Binary64) (q : ℚ) (exact_x : x.standing = ofRat q) (small : |q| ≤ 1048575) :
    |x.thousandths - 1000 * q| ≤ 1 / 2 + 1 / 2 ^ 22 := by
  obtain ⟨y, scaled, close⟩ := rounded_near (1000 * q) 22 (by decide) (by rw [thousand_size]; linarith)
  obtain ⟨reach, _⟩ := sizes_near _ _ _ close
  rw [thousand_size] at reach
  have raise := abs_add_le y (1 / 2)
  rw [abs_of_pos (one_half_pos (α := ℚ))] at raise
  obtain ⟨z, raised, half⟩ := rounded_near (y + 1 / 2) 22 (by decide) (by linarith)
  obtain ⟨left, right⟩ := abs_le.mp close
  obtain ⟨below, above⟩ := abs_le.mp half
  have under := Int.floor_le z
  have next := Int.lt_floor_add_one z
  have near : |⌊z⌋ - 1000 * q| ≤ 1 / 2 + 1 / 2 ^ 22 := abs_le.mpr ⟨by linarith, by linarith⟩
  obtain ⟨_, whole⟩ := sizes_near _ _ _ near
  rw [thousand_size] at whole
  rwa [thousandths_whole x q y z exact_x scaled raised (by linarith)]

theorem to_thousandths_small (x : Binary64) (q : ℚ) (exact_x : x.standing = ofRat q) (small : |q| ≤ 1048575) :
    ∃ r, x.toThousandths.standing = ofRat r ∧ |r - q| ≤ 1 / 2000 + 1 / 2 ^ 30 := by
  have near := thousandths_small x q exact_x small
  generalize same : x.thousandths = n at near
  obtain ⟨_, size⟩ := sizes_near _ _ _ near
  rw [thousand_size] at size
  have whole : |n| ≤ 2 ^ 53 := by
    apply whole_within
    push_cast
    linarith
  obtain ⟨r, stands, close⟩ := to_thousandths_fine x q _ n 33 near (to_thousandths_rounded x n same whole)
    (by decide) (by rw [thousandth_size]; linarith)
  exact ⟨r, stands, close.trans (by norm_num)⟩

theorem thousandths_relative (x : Binary64) (q : ℚ) (exact_x : x.standing = ofRat q)
    (large : 2 ^ 52 < 1000 * |q|) (small : |q| ≤ 9200000000000000) :
    |x.thousandths - 1000 * q| ≤ 3 / 4 + 1000 * |q| / 2 ^ 52 := by
  have size := thousand_size q
  obtain ⟨y, scaled, yNear⟩ := rounded_moderate (1000 * q) (by linarith) (by linarith)
  obtain ⟨yMost, yLeast⟩ := sizes_near _ _ _ yNear
  obtain ⟨_, _⟩ := sizes_near y (y + 1 / 2) (1 / 2) (by norm_num)
  obtain ⟨z, raised, zNear⟩ := rounded_moderate (y + 1 / 2) (by linarith) (by linarith)
  obtain ⟨zMost, zLeast⟩ := sizes_near _ _ _ zNear
  have under := Int.floor_le z
  have above := Int.lt_floor_add_one z
  obtain ⟨_, _⟩ := sizes_near z ⌊z⌋ 1 (abs_le.mpr ⟨by linarith, by linarith⟩)
  rw [thousandths_whole x q y z exact_x scaled raised (by linarith)]
  obtain ⟨_, _⟩ := abs_le.mp yNear
  obtain ⟨_, _⟩ := abs_le.mp zNear
  exact abs_le.mpr ⟨by linarith, by linarith⟩

theorem thousandth_relative (n : ℤ) (large : 2 ^ 51 ≤ |(n : ℚ)|) (small : |(n : ℚ)| ≤ 2 ^ 63) :
    ∃ r, (ofInt n / ofNat 1000).standing = ofRat r ∧ |r - n / 1000| ≤ 1 / 8000 + |(n / 1000 : ℚ)| / 2 ^ 52 := by
  obtain ⟨k, whole, kNear⟩ := rounded_moderate n (by linarith) (by linarith)
  obtain ⟨kMost, kLeast⟩ := sizes_near _ _ _ kNear
  have parts := thousandth_size k
  obtain ⟨r, last, rNear⟩ := rounded_moderate (k / 1000) (by linarith) (by linarith)
  obtain ⟨rMost, _⟩ := sizes_near _ _ _ rNear
  have quotient := div_rounded _ _ k 1000 ((of_int_rounded n).trans whole) thousand_standing (by norm_num)
  refine ⟨r, quotient.trans last, ?_⟩
  rw [thousandth_size]
  obtain ⟨_, _⟩ := abs_le.mp kNear
  obtain ⟨_, _⟩ := abs_le.mp rNear
  exact abs_le.mpr ⟨by linarith, by linarith⟩

theorem to_thousandths_relative (x : Binary64) (q : ℚ) (exact_x : x.standing = ofRat q)
    (small : |q| ≤ 9200000000000000) :
    ∃ r, x.toThousandths.standing = ofRat r ∧ |r - q| ≤ 1 / 1000 + |q| / 2 ^ 51 := by
  have positive := abs_nonneg q
  rcases le_or_gt (1000 * |q|) (2 ^ 52) with fine | coarse
  · obtain ⟨r, stands, near⟩ := to_thousandths_near x q exact_x fine
    exact ⟨r, stands, by linarith⟩
  · have near := thousandths_relative x q exact_x coarse small
    obtain ⟨least, most⟩ := sizes_near _ _ _ near
    rw [thousand_size] at least most
    obtain ⟨r, stands, closer⟩ := thousandth_relative x.thousandths (by linarith) (by linarith)
    refine ⟨r, stands, ?_⟩
    rw [thousandth_size] at closer
    obtain ⟨_, _⟩ := abs_le.mp near
    obtain ⟨_, _⟩ := abs_le.mp closer
    exact abs_le.mpr ⟨by linarith, by linarith⟩

end Aggregation.Binary64
