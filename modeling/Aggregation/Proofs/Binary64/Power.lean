import Mathlib
import Aggregation.Binary64.Power
import Aggregation.Proofs.Binary64.Closest
import Aggregation.Proofs.Binary64.Integers

set_option autoImplicit false

namespace Aggregation.Binary64

open Standing

theorem logb_power (k : Nat) : Real.logb 2 (2 ^ k) = k := by
  rw [Real.logb_pow, Real.logb_self_eq_one (by norm_num), mul_one]

theorem logb_scaled (x : ℝ) (k : Nat) (nonzero : x ≠ 0) : Real.logb 2 (x / 2 ^ k) = Real.logb 2 x - k := by
  rw [Real.logb_div nonzero (pow_ne_zero _ two_ne_zero), logb_power]

theorem logb_le_add (x y d : ℝ) (left : 0 < x) (right : 0 < y) (small : 0 ≤ d) (near : x - y ≤ y * d) :
    Real.logb 2 x ≤ Real.logb 2 y + 3 / 2 * d := by
  have two : (2 / 3 : ℝ) ≤ Real.log 2 := by linarith [Real.log_two_gt_d9]
  have gap : Real.log x - Real.log y ≤ d := by
    rw [← Real.log_div left.ne' right.ne']
    refine (Real.log_le_sub_one_of_pos (div_pos left right)).trans ?_
    rw [div_sub_one right.ne', div_le_iff₀ right]
    linarith
  rw [Real.logb, Real.logb, div_add' _ _ _ (by linarith : Real.log 2 ≠ 0),
    div_le_div_iff_of_pos_right (by linarith)]
  linarith [mul_le_mul_of_nonneg_left two small]

theorem le_of_logb_le (x y d : ℝ) (left : 0 < x) (right : 0 < y) (low : 0 ≤ d) (small : d ≤ 1 / 2)
    (le : Real.logb 2 x ≤ Real.logb 2 y + d) : x ≤ y * (1 + 2 * d) := by
  have factor : 0 < 1 + 2 * d := by linarith
  have two : Real.log 2 ≤ 1 := by linarith [Real.log_two_lt_d9]
  have grows : d ≤ Real.logb 2 (1 + 2 * d) := by
    have least := Real.one_sub_inv_le_log_of_pos factor
    have enough : d ≤ 1 - (1 + 2 * d)⁻¹ := by
      rw [le_sub_comm, inv_le_iff_one_le_mul₀ factor]
      nlinarith
    rw [Real.logb, le_div_iff₀ (Real.log_pos one_lt_two)]
    calc d * Real.log 2 ≤ d := mul_le_of_le_one_right low two
      _ ≤ Real.log (1 + 2 * d) := enough.trans least
  rw [← Real.logb_le_logb one_lt_two left (mul_pos right factor), Real.logb_mul right.ne' factor.ne']
  linarith

structure Significand (n : Nat) : Prop where
  low : 2 ^ logBits ≤ n
  high : n < 2 ^ (logBits + 1)

theorem logb_floor (n : Nat) (x : ℝ) (significand : Significand n) (le : n ≤ x) (less : x < n + 1) :
    Real.logb 2 x - 2 / 2 ^ 160 ≤ Real.logb 2 n ∧ Real.logb 2 n ≤ Real.logb 2 x := by
  have unit : (2 ^ 160 : ℝ) ≤ n := by exact_mod_cast significand.low
  have positive : (0 : ℝ) < n := (by positivity : (0 : ℝ) < 2 ^ 160).trans_le unit
  have near := logb_le_add x n (1 / 2 ^ 160) (positive.trans_le le) positive (by positivity) (by linarith)
  exact ⟨by linarith, Real.logb_le_logb_of_le (by norm_num) positive le⟩

theorem floor_quotient (m d : Nat) : ((m / d : Nat) : ℝ) ≤ m / d ∧ (m / d : ℝ) < (m / d : Nat) + 1 := by
  rw [← Nat.floor_div_eq_div (K := ℝ)]
  exact ⟨Nat.floor_le (div_nonneg (Nat.cast_nonneg m) (Nat.cast_nonneg d)), Nat.lt_floor_add_one _⟩

-- One step squares the significand, halves the square if it has passed two, and drops its lowest bits.
theorem log_fraction_step (steps n bits : Nat) (significand : Significand n) : ∃ next bit,
    logFraction (steps + 1) n bits = logFraction steps next (2 * bits + bit) ∧ Significand next ∧
      (next : ℝ) ≤ n * n / 2 ^ 160 / 2 ^ bit ∧ (n * n / 2 ^ 160 / 2 ^ bit : ℝ) < next + 1 := by
  obtain ⟨low, high⟩ := significand
  have least : 2 ^ logBits ≤ n * n / 2 ^ logBits := by
    rw [Nat.le_div_iff_mul_le (Nat.two_pow_pos _)]
    exact Nat.mul_le_mul low low
  have most : n * n / 2 ^ logBits < 2 * 2 ^ (logBits + 1) := by
    rw [Nat.div_lt_iff_lt_mul (Nat.two_pow_pos _)]
    exact (Nat.mul_lt_mul'' high high).trans_eq (by decide)
  rw [logFraction]
  simp only [Nat.shiftRight_eq_div_pow]
  split
  next small =>
    have below := (Nat.div_eq_zero_iff_lt (Nat.two_pow_pos _)).mp small
    have floor := floor_quotient (n * n) (2 ^ logBits)
    refine ⟨_, 0, rfl, ⟨least, below⟩, ?_⟩
    rw [pow_zero, div_one]
    exact_mod_cast floor
  next large =>
    have reached := Nat.div_ne_zero_iff.mp large
    have floor := floor_quotient (n * n) (2 ^ logBits * 2)
    refine ⟨_, 1, rfl, ⟨?_, ?_⟩, ?_⟩
    · rw [Nat.le_div_iff_mul_le (by decide)]
      exact reached.2
    · rw [Nat.div_lt_iff_lt_mul (by decide), Nat.mul_comm]
      exact most
    · rw [pow_one, pow_one, Nat.div_div_eq_div_mul, div_div]
      exact_mod_cast floor

theorem log_fraction_near (steps n bits : Nat) (significand : Significand n) :
    let whole : ℝ := 2 ^ steps * (bits + Real.logb 2 (n / 2 ^ 160))
    whole - (1 + 2 ^ steps * (2 / 2 ^ 160)) ≤ logFraction steps n bits ∧ logFraction steps n bits ≤ whole := by
  induction steps generalizing n bits with
  | zero =>
      intro whole
      have unit : (0 : ℝ) < 2 ^ 160 := by positivity
      have low : (2 ^ 160 : ℝ) ≤ n := by exact_mod_cast significand.low
      have high : (n : ℝ) < 2 ^ 161 := by exact_mod_cast significand.high
      have least : 0 ≤ Real.logb 2 (n / 2 ^ 160) :=
        Real.logb_nonneg (by norm_num) ((one_le_div unit).mpr low)
      have most : Real.logb 2 (n / 2 ^ 160) ≤ 1 := by
        rw [Real.logb_le_iff_le_rpow (by norm_num) (div_pos (unit.trans_le low) unit), Real.rpow_one,
          div_le_iff₀ unit]
        linarith
      rw [logFraction]
      simp only [whole, pow_zero, one_mul]
      constructor <;> linarith
  | succ steps ih =>
      intro whole
      obtain ⟨next, bit, step, inside, le, less⟩ := log_fraction_step steps n bits significand
      obtain ⟨lower, upper⟩ := ih next (2 * bits + bit) inside
      obtain ⟨short, fits⟩ := logb_floor next _ inside le less
      have unit : (0 : ℝ) < 2 ^ 160 := by positivity
      have positive : (0 : ℝ) < n := by
        exact_mod_cast (Nat.two_pow_pos logBits).trans_le significand.low
      have later : (0 : ℝ) < next := by
        exact_mod_cast (Nat.two_pow_pos logBits).trans_le inside.low
      have square : Real.logb 2 (n * n / 2 ^ 160 / 2 ^ bit) = 2 * Real.logb 2 n - 160 - bit := by
        rw [logb_scaled _ bit (div_ne_zero (mul_self_ne_zero.mpr positive.ne') unit.ne'),
          logb_scaled _ 160 (mul_self_ne_zero.mpr positive.ne'), Real.logb_mul positive.ne' positive.ne']
        push_cast
        ring
      rw [square] at short fits
      simp only [logb_scaled _ 160 later.ne'] at lower upper
      have scale : (0 : ℝ) < 2 ^ steps := by positivity
      have lost := mul_le_mul_of_nonneg_left short scale.le
      have kept := mul_le_mul_of_nonneg_left fits scale.le
      rw [step]
      simp only [whole, logb_scaled _ 160 positive.ne', pow_succ (2 : ℝ) steps]
      push_cast at lower upper ⊢
      constructor <;> linarith

-- The logarithm of a whole number is at most five units of its last place too low.
theorem log_near (n : Nat) (positive : 0 < n) :
    2 ^ 160 * Real.logb 2 n - 5 ≤ log n ∧ log n ≤ 2 ^ 160 * Real.logb 2 n := by
  have power : (0 : ℝ) < 2 ^ n.log2 := by positivity
  have up : (0 : ℝ) < n := Nat.cast_pos.mpr positive
  have low : 2 ^ n.log2 ≤ n := Nat.log2_self_le positive.ne'
  have high : n < 2 ^ n.log2 * 2 := by
    rw [← Nat.pow_succ]
    exact Nat.lt_log2_self
  have significand : Significand (n * 2 ^ logBits / 2 ^ n.log2) := by
    constructor
    · rw [Nat.le_div_iff_mul_le (Nat.two_pow_pos _), Nat.mul_comm]
      exact Nat.mul_le_mul_right _ low
    · rw [Nat.div_lt_iff_lt_mul (Nat.two_pow_pos _), Nat.pow_succ]
      calc n * 2 ^ logBits < 2 ^ n.log2 * 2 * 2 ^ logBits := Nat.mul_lt_mul_of_pos_right high (Nat.two_pow_pos _)
        _ = 2 ^ logBits * 2 * 2 ^ n.log2 := by ring
  obtain ⟨le, less⟩ := floor_quotient (n * 2 ^ logBits) (2 ^ n.log2)
  obtain ⟨short, fits⟩ := logb_floor _ _ significand le less
  obtain ⟨lower, upper⟩ := log_fraction_near logBits _ n.log2 significand
  have exact_log : Real.logb 2 ((n * 2 ^ logBits : Nat) / (2 ^ n.log2 : Nat)) = Real.logb 2 n + 160 - n.log2 := by
    push_cast
    rw [logb_scaled _ _ (mul_ne_zero up.ne' (by positivity)), Real.logb_mul up.ne' (by positivity), logb_power]
    norm_num [logBits]
  have later : (0 : ℝ) < (n * 2 ^ logBits / 2 ^ n.log2 : Nat) := by
    exact_mod_cast (Nat.two_pow_pos logBits).trans_le significand.low
  have unit : (2 : ℝ) ^ logBits = 2 ^ 160 := rfl
  simp only [logb_scaled _ 160 later.ne', unit] at lower upper
  rw [exact_log] at short fits
  rw [log, Nat.shiftLeft_eq, Nat.shiftRight_eq_div_pow]
  push_cast at lower upper ⊢
  constructor <;> linarith

theorem midpoint_pos (index : Nat) : 0 < midpoint index :=
  Nat.add_pos_right _ (units_pos _ (Nat.succ_pos _))

theorem real_spacing (index : Nat) : (units (index + 1) : ℝ) = units index + 2 ^ (index / binade - 1) ∧
    (units index : ℝ) ≤ 2 ^ 53 * 2 ^ (index / binade - 1) := by
  obtain ⟨lap, place, inside, rfl⟩ : ∃ lap place, place < binade ∧ index = binade * lap + place :=
    ⟨index / binade, index % binade, Nat.mod_lt _ binade_pos, (Nat.div_add_mod _ _).symm⟩
  have short : units (binade * lap + place) ≤ 2 ^ 53 * 2 ^ ((binade * lap + place) / binade - 1) := by
    have whole : binade + binade = 2 ^ 53 := by decide
    rw [units_split lap place inside, Nat.mul_add_div binade_pos, Nat.div_eq_of_lt inside, Nat.add_zero]
    split
    next first =>
      rw [first]
      omega
    next => exact Nat.mul_le_mul_right _ (by omega)
  rw [units_succ]
  exact ⟨by push_cast; rfl, by exact_mod_cast short⟩

structure Power (base exponent : Nat) : Prop where
  positive : 0 < base
  finite : base ≤ units (finiteCount - 1)
  exponent : exponent ≤ unitsInOne

noncomputable def powerLog (base exponent : Nat) : ℝ :=
  (Real.logb 2 base - 1074) * (exponent / unitsInOne)

noncomputable def realPower (base exponent : Nat) : ℝ :=
  (base / unitsInOne : ℝ) ^ (exponent / unitsInOne : ℝ) * unitsInOne

theorem unit_real_pos : (0 : ℝ) < unitsInOne :=
  Nat.cast_pos.mpr units_in_one_pos

theorem unit_real : (unitsInOne : ℝ) = 2 ^ unitPlaces := by
  rw [unitsInOne, Nat.one_shiftLeft, Nat.cast_pow, Nat.cast_ofNat]

section Power

variable (base exponent : Nat) (power : Power base exponent)

include power

theorem power_share : 0 ≤ (exponent / unitsInOne : ℝ) ∧ (exponent / unitsInOne : ℝ) ≤ 1 :=
  ⟨div_nonneg (Nat.cast_nonneg _) (Nat.cast_nonneg _),
    div_le_one_of_le₀ (Nat.cast_le.mpr power.exponent) (Nat.cast_nonneg _)⟩

-- A number of half units that is not found above the power is not above it by more than its logarithm can
-- be off, and so below.
theorem power_side (half : Nat) (positive : 0 < half) :
    let side := Ord.compare (((log half : Int) - ((unitPlaces + 1) <<< logBits : Nat)) * unitsInOne)
      (((log base : Int) - (unitPlaces <<< logBits : Nat)) * exponent)
    (side ≠ .gt → Real.logb 2 half - 1075 ≤ powerLog base exponent + 5 / 2 ^ 160) ∧
      (side ≠ .lt → powerLog base exponent - 5 / 2 ^ 160 ≤ Real.logb 2 half - 1075) := by
  intro side
  obtain ⟨baseLow, baseHigh⟩ := log_near base power.positive
  obtain ⟨halfLow, halfHigh⟩ := log_near half positive
  obtain ⟨shareLow, shareHigh⟩ := power_share base exponent power
  have scale : (0 : ℝ) < 2 ^ 160 := by positivity
  have halfPlaces : (((unitPlaces + 1) <<< logBits : Nat) : ℝ) = 1075 * 2 ^ 160 := by
    rw [Nat.shiftLeft_eq]
    norm_num [unitPlaces, logBits]
  have places : ((unitPlaces <<< logBits : Nat) : ℝ) = 1074 * 2 ^ 160 := by
    rw [Nat.shiftLeft_eq]
    norm_num [unitPlaces, logBits]
  rw [powerLog]
  generalize share : (exponent / unitsInOne : ℝ) = e at shareLow shareHigh ⊢
  have scaled : (exponent : ℝ) = e * unitsInOne := by
    rw [← share, div_mul_cancel₀ _ unit_real_pos.ne']
  constructor
  · intro notGreater
    have le := compare_le_iff_le.mp notGreater
    have real : ((log half : ℝ) - 1075 * 2 ^ 160) * unitsInOne ≤ (log base - 1074 * 2 ^ 160) * (e * unitsInOne) := by
      rw [← halfPlaces, ← places, ← scaled]
      exact_mod_cast le
    rw [← mul_assoc, mul_le_mul_iff_left₀ unit_real_pos] at real
    have top := mul_le_mul_of_nonneg_right (sub_le_sub_right baseHigh (1074 * 2 ^ 160)) shareLow
    linarith
  · intro notLess
    have ge := compare_ge_iff_ge.mp notLess
    have real : (log base - 1074 * 2 ^ 160) * (e * unitsInOne) ≤ ((log half : ℝ) - 1075 * 2 ^ 160) * unitsInOne := by
      rw [← halfPlaces, ← places, ← scaled]
      exact_mod_cast ge
    rw [← mul_assoc, mul_le_mul_iff_left₀ unit_real_pos] at real
    have bottom := mul_le_mul_of_nonneg_right (sub_le_sub_right baseLow (1074 * 2 ^ 160)) shareLow
    linarith

theorem power_turns :
    indexOfPower base exponent ≤ finiteCount ∧
      (∀ before, indexOfPower base exponent = before + 1 →
        Real.logb 2 (midpoint before) - 1075 ≤ powerLog base exponent + 5 / 2 ^ 160) ∧
      (indexOfPower base exponent < finiteCount →
        powerLog base exponent - 5 / 2 ^ 160 ≤ Real.logb 2 (midpoint (indexOfPower base exponent)) - 1075) := by
  have side (index : Nat) := power_side base exponent power (midpoint index) (midpoint_pos index)
  have turns : Turns (passes _) finiteCount (indexOfPower base exponent) := partition_point_turns _ _
  refine ⟨turns.inside, fun before same => ?_, fun inside => ?_⟩
  · refine (side before).1 fun greater => ?_
    have passed := turns.before before same
    rw [passes] at passed
    simp only [greater] at passed
    cases passed
  · refine (side _).2 fun less => ?_
    have stopped := turns.here inside
    rw [passes] at stopped
    simp only [less] at stopped
    cases stopped

theorem real_power_pos : 0 < realPower base exponent :=
  mul_pos (Real.rpow_pos_of_pos (div_pos (Nat.cast_pos.mpr power.positive) unit_real_pos) _) unit_real_pos

theorem logb_real_power : Real.logb 2 (2 * realPower base exponent) = powerLog base exponent + 1075 := by
  have up : (0 : ℝ) < base := Nat.cast_pos.mpr power.positive
  have ratio := div_pos up unit_real_pos
  have whole : Real.logb 2 unitsInOne = 1074 := by
    rw [unit_real, logb_power, unitPlaces]
    norm_num
  rw [Real.logb_mul two_ne_zero (real_power_pos base exponent power).ne', realPower,
    Real.logb_mul (Real.rpow_pos_of_pos ratio _).ne' unit_real_pos.ne', Real.logb_rpow_eq_mul_logb_of_pos ratio,
    Real.logb_div up.ne' unit_real_pos.ne', whole, Real.logb_self_eq_one one_lt_two, powerLog]
  ring

theorem power_bracket :
    (∀ before, indexOfPower base exponent = before + 1 →
      (midpoint before : ℝ) ≤ 2 * realPower base exponent * (1 + 10 / 2 ^ 160)) ∧
      (indexOfPower base exponent < finiteCount →
        2 * realPower base exponent ≤ midpoint (indexOfPower base exponent) * (1 + 10 / 2 ^ 160)) := by
  obtain ⟨_, before, here⟩ := power_turns base exponent power
  have real : 0 < 2 * realPower base exponent := mul_pos two_pos (real_power_pos base exponent power)
  have positive (i : Nat) : (0 : ℝ) < midpoint i := Nat.cast_pos.mpr (midpoint_pos i)
  have same := logb_real_power base exponent power
  have factor : (1 + 10 / 2 ^ 160 : ℝ) = 1 + 2 * (5 / 2 ^ 160) := by ring
  rw [factor]
  refine ⟨fun last found => ?_, fun inside => ?_⟩
  · have below := before last found
    exact le_of_logb_le _ _ _ (positive last) real (by positivity) (by norm_num) (by linarith)
  · have above := here inside
    exact le_of_logb_le _ _ _ real (positive _) (by positivity) (by norm_num) (by linarith)

theorem real_power_le : realPower base exponent ≤ units (finiteCount - 1) := by
  obtain ⟨shareLow, shareHigh⟩ := power_share base exponent power
  have top : (base : ℝ) ≤ units (finiteCount - 1) := Nat.cast_le.mpr power.finite
  have ratio : (0 : ℝ) ≤ base / unitsInOne := div_nonneg (Nat.cast_nonneg _) unit_real_pos.le
  rcases le_total (base / unitsInOne : ℝ) 1 with small | large
  · have least : unitsInOne ≤ units (finiteCount - 1) := by decide +kernel
    calc realPower base exponent ≤ 1 * unitsInOne :=
          mul_le_mul_of_nonneg_right (Real.rpow_le_one ratio small shareLow) unit_real_pos.le
      _ ≤ units (finiteCount - 1) := by rw [one_mul]; exact Nat.cast_le.mpr least
  · have raised := Real.rpow_le_rpow_of_exponent_le large shareHigh
    rw [Real.rpow_one] at raised
    calc realPower base exponent ≤ base / unitsInOne * unitsInOne :=
          mul_le_mul_of_nonneg_right raised unit_real_pos.le
      _ = base := div_mul_cancel₀ _ unit_real_pos.ne'
      _ ≤ units (finiteCount - 1) := top

theorem power_inside : indexOfPower base exponent < finiteCount := by
  obtain ⟨inside, _, _⟩ := power_turns base exponent power
  obtain ⟨below, _⟩ := power_bracket base exponent power
  by_contra outside
  obtain ⟨last, found⟩ : ∃ last, finiteCount = last + 1 := ⟨finiteCount - 1, by decide⟩
  have bound := below last (by omega)
  have most := real_power_le base exponent power
  rw [found, Nat.add_sub_cancel] at most
  obtain ⟨next, fine⟩ := real_spacing last
  rw [midpoint, Nat.cast_add, next] at bound
  linarith [pow_pos (two_pos : (0 : ℝ) < 2) (last / binade - 1)]

theorem power_near : ∃ index, units index ≤ realPower base exponent ∧
    |units (indexOfPower base exponent) - realPower base exponent| ≤ (2 : ℝ) ^ (index / binade - 1) := by
  obtain ⟨below, above⟩ := power_bracket base exponent power
  have high := above (power_inside base exponent power)
  have positive := real_power_pos base exponent power
  generalize indexOfPower base exponent = index at *
  generalize realPower base exponent = real at *
  rcases lt_or_ge (units index : ℝ) real with under | past
  · obtain ⟨next, fine⟩ := real_spacing index
    rw [midpoint, Nat.cast_add, next] at high
    refine ⟨index, under.le, abs_le.mpr ⟨by linarith, ?_⟩⟩
    linarith [pow_pos (two_pos : (0 : ℝ) < 2) (index / binade - 1)]
  · have later : index ≠ 0 := by
      rintro rfl
      rw [units_zero, Nat.cast_zero] at past
      linarith
    obtain ⟨before, rfl⟩ := Nat.exists_eq_succ_of_ne_zero later
    have low := below before rfl
    obtain ⟨next, fine⟩ := real_spacing before
    rw [Nat.succ_eq_add_one] at past ⊢
    rw [midpoint, Nat.cast_add, next] at low
    rw [next] at past ⊢
    exact ⟨before, by linarith, abs_le.mpr ⟨by linarith, by linarith⟩⟩

end Power

noncomputable def ulp (real : ℝ) : ℝ :=
  2 ^ max (Int.log 2 real - 52) (-1074)

theorem ulp_pos (real : ℝ) : 0 < ulp real :=
  zpow_pos two_pos _

theorem ulp_le (real : ℝ) (place : ℤ) (positive : 0 < real) (below : real < 2 ^ place) (few : -1021 ≤ place) :
    ulp real ≤ 2 ^ (place - 53) := by
  have less : Int.log 2 real < place := (Int.lt_zpow_iff_log_lt (by norm_num) positive).mp (by exact_mod_cast below)
  exact zpow_le_zpow_right₀ one_le_two (max_le (by omega) (by omega))

theorem spacing_le_ulp (index : Nat) (real : ℝ) (positive : 0 < real) (reached : units index / unitsInOne ≤ real) :
    (2 : ℝ) ^ (index / binade - 1) / unitsInOne ≤ ulp real := by
  have scale (place : Nat) : (2 : ℝ) ^ place / unitsInOne = 2 ^ ((place : ℤ) - 1074) := by
    rw [unit_real, unitPlaces, zpow_sub₀ two_ne_zero, zpow_natCast]
    norm_cast
  rw [scale]
  refine zpow_le_zpow_right₀ one_le_two ?_
  rcases Nat.lt_or_ge (index / binade) 2 with first | later
  · exact le_max_of_le_right (by omega)
  · obtain ⟨lap, found⟩ := Nat.exists_eq_add_of_le' (Nat.one_le_of_lt later)
    refine le_max_of_le_left ?_
    have start : binade * 2 ^ lap ≤ units index := by
      rw [← units_power, ← found]
      exact units_strict_mono.monotone (Nat.mul_div_le index binade)
    have power : ((2 ^ (52 + lap) : Nat) : ℝ) ≤ units index := by
      rw [Nat.pow_add, show 2 ^ 52 = binade by decide]
      exact Nat.cast_le.mpr start
    rw [Nat.cast_pow, Nat.cast_ofNat] at power
    have low := (div_le_div_of_nonneg_right power unit_real_pos.le).trans reached
    rw [scale] at low
    have logs : ((52 + lap : Nat) : ℤ) - 1074 ≤ Int.log 2 real :=
      (Int.zpow_le_iff_le_log (by norm_num) positive).mp (by exact_mod_cast low)
    push_cast at logs
    omega

/-- What the platform says of its powers: for a positive base and an exponent up to one the result is within
one unit in the last place, and the powers of zero and infinity are zero and infinity. -/
structure AccuratePower [PowerFunction] : Prop where
  near (x y : Binary64) (p e : ℚ) : x.standing = ofRat p → y.standing = ofRat e → 0 < p → 0 < e → e ≤ 1 →
    ∃ r : ℚ, (PowerFunction.power x y).standing = ofRat r ∧ |r - (p : ℝ) ^ (e : ℝ)| ≤ ulp ((p : ℝ) ^ (e : ℝ))
  zero (y : Binary64) (e : ℚ) : y.standing = ofRat e → 0 < e → PowerFunction.power .zero y = .zero
  infinity (y : Binary64) (e : ℚ) : y.standing = ofRat e → 0 < e →
    PowerFunction.power (.infinity false) y = .infinity false

theorem one_standing : one.standing = ofRat 1 := by
  have whole := of_nat_standing 1 (by norm_num)
  rw [Nat.cast_one] at whole
  exact whole

theorem nearest_power_near (x y : Binary64) (p e : ℚ) (exact_x : x.standing = ofRat p) (exact_y : y.standing = ofRat e)
    (pPos : 0 < p) (ePos : 0 < e) (one_le : e ≤ 1) :
    ∃ r : ℚ, (nearestPower x y).standing = ofRat r ∧ |r - (p : ℝ) ^ (e : ℝ)| ≤ ulp ((p : ℝ) ^ (e : ℝ)) := by
  unfold nearestPower
  split
  next unchanged =>
    rw [unchanged, one_standing] at exact_y
    obtain rfl := of_rat_strict_mono.injective exact_y
    refine ⟨p, exact_x, ?_⟩
    rw [Rat.cast_one, Real.rpow_one, sub_self, abs_zero]
    exact (ulp_pos _).le
  next =>
    obtain ⟨index, later, rfl, magnitude⟩ := positive_form x p exact_x pPos
    obtain ⟨share, some_share, rfl, exponent⟩ := positive_form y e exact_y ePos
    have power : Power (units index) (units share) := by
      refine ⟨units_pos _ later, units_strict_mono.monotone (Nat.le_sub_one_of_lt index.isLt), ?_⟩
      rw [exponent, div_le_one₀ unit_rat_pos] at one_le
      exact_mod_cast one_le
    have inside := power_inside _ _ power
    have real : realPower (units index) (units share) = (p : ℝ) ^ (e : ℝ) * unitsInOne := by
      rw [realPower, magnitude, exponent]
      push_cast
      rfl
    obtain ⟨j, reached, close⟩ := power_near _ _ power
    have positive : (0 : ℝ) < (p : ℝ) ^ (e : ℝ) := Real.rpow_pos_of_pos (Rat.cast_pos.mpr pPos) _
    rw [real] at reached close
    simp only [later.ne', Bool.false_eq_true, if_false]
    rw [ofIndex, dif_pos inside]
    refine ⟨_, rfl, ?_⟩
    refine le_trans ?_ (spacing_le_ulp j _ positive ((div_le_iff₀ unit_real_pos).mpr reached))
    rw [le_div_iff₀ unit_real_pos, ← abs_of_pos unit_real_pos, ← abs_mul, sub_mul, value_eq_units,
      signed_false]
    push_cast
    rwa [div_mul_cancel₀ _ unit_real_pos.ne']

theorem nearest_powers_accurate : AccuratePower where
  near := nearest_power_near
  zero y e exact_y positive := by
    obtain ⟨share, _, rfl, _⟩ := positive_form y e exact_y positive
    change nearestPower zero (finite false share) = zero
    unfold nearestPower
    split <;> rfl
  infinity y e exact_y positive := by
    obtain ⟨share, _, rfl, _⟩ := positive_form y e exact_y positive
    change nearestPower (infinity false) (finite false share) = infinity false
    unfold nearestPower
    split <;> rfl

theorem reciprocal_near (n : Nat) (counted : 1 ≤ n) (few : n < 2 ^ 64) :
    ∃ e : ℚ, (one / ofNat n).standing = ofRat e ∧ 0 < e ∧ e ≤ 1 ∧ |e * n - 1| ≤ 4 / 2 ^ 53 := by
  have low : (1 : ℚ) ≤ n := by exact_mod_cast counted
  have high : (n : ℚ) ≤ 2 ^ 64 := by exact_mod_cast few.le
  have size : |(n : ℚ)| = n := abs_of_nonneg (Nat.cast_nonneg n)
  obtain ⟨g, count, near⟩ := rounded_moderate n (by rw [size]; linarith) (by rw [size]; exact high)
  have bottom := fixed_multiple 1 1 0 (by norm_num) (by norm_num) (by decide)
  have gLow := stays_above _ g 1 count bottom low
  have gHigh := stays_below _ g _ count top_fixed high
  have gSize : |g| = g := abs_of_pos (by linarith)
  have gPos : 0 < g := by linarith
  have least : 1 / 2 ^ 64 ≤ 1 / g := one_div_le_one_div_of_le gPos gHigh
  have most : 1 / g ≤ 1 := (div_le_one₀ gPos).mpr gLow
  have share : |1 / g| = 1 / g := abs_of_pos (one_div_pos.mpr gPos)
  obtain ⟨e, quotient, close⟩ := rounded_moderate (1 / g) (by rw [share]; exact least) (by rw [share]; linarith)
  have bit := fixed_multiple (1 / 2 ^ 64) 1 64 (by norm_num) (by norm_num) (by decide)
  have eLow := stays_above _ e _ quotient bit least
  have eHigh := stays_below _ e _ quotient bottom most
  have ePos : 0 < e := by linarith
  have stands := div_rounded one (ofNat n) 1 g one_standing ((of_nat_rounded n).trans count) gPos.ne'
  refine ⟨e, stands.trans quotient, ePos, eHigh, ?_⟩
  rw [gSize] at near
  rw [abs_of_pos ePos] at close
  obtain ⟨n1, n2⟩ := abs_le.mp near
  obtain ⟨e1, e2⟩ := abs_le.mp close
  -- The product of both doubles is one up to the second error.
  have one_g : 1 / g * g = 1 := one_div_mul_cancel gPos.ne'
  have below := mul_le_mul_of_nonneg_right e1 gPos.le
  have above := mul_le_mul_of_nonneg_right e2 gPos.le
  have first := mul_le_mul_of_nonneg_left n1 ePos.le
  have second := mul_le_mul_of_nonneg_left n2 ePos.le
  rw [sub_mul, one_g] at below above
  exact abs_le.mpr ⟨by linarith, by linarith⟩

end Aggregation.Binary64
