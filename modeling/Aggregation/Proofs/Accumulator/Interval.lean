import Mathlib
import Aggregation.Proofs.Accumulator.VarianceSign
import Aggregation.Proofs.Datum.RoundTrip
import Aggregation.Proofs.Interval

set_option autoImplicit false

namespace Aggregation.Accumulator

open Binary64 Standing

theorem interval_outcome [PowerFunction] (acc : Accumulator) (level : ConfidenceLevel)
    (kind : acc.aggregate = .confidence level) :
    let bounds := acc.moments.interval (.ofNat acc.count) level.score
    acc.outcome =
      .ok (if acc.count = 0 then .unfounded else .value (.text (intervalText bounds.1 bounds.2))) := by
  obtain ⟨aggregate, dataType, count, running, moments, product, reciprocals, held⟩ := acc
  subst kind
  rfl

theorem interval_answer [PowerFunction] (acc : Accumulator) (level : ConfidenceLevel) (target : DataType)
    (kind : acc.aggregate = .confidence level) (counted : 1 ≤ acc.count) :
    let bounds := acc.moments.interval (.ofNat acc.count) level.score
    (acc.finish target false).1 = (Datum.text (intervalText bounds.1 bounds.2)).convert target := by
  change acc.answer target = _
  rw [answer, interval_outcome acc level kind, if_neg (by omega)]
  rfl

theorem bound_read (x : Binary64) :
    Text.readDouble? (Text.stripped (Layout.plain.render x.toThousandths)) = some x.toThousandths := by
  obtain ⟨r, stands, _⟩ := to_thousandths_within x
  obtain ⟨negative, index, same, _⟩ := finite_of_standing _ r stands
  rw [same]
  exact Layout.read_finite Layout.plain rfl negative index

/-- The bounds of a confidence interval are in order, and a surer interval holds a less sure one, whatever the mean and
the squares. The text that is answered is read as the same bounds again. -/
theorem intervals_nested [PowerFunction] (acc : Accumulator) (narrow wide : ConfidenceLevel) (target : DataType)
    (kind : acc.aggregate = .confidence narrow) (counted : 1 ≤ acc.count)
    (surer : narrow.permille ≤ wide.permille) :
    ∃ low high lower higher,
      (acc.finish target false).1 = (Datum.text (intervalText low high)).convert target ∧
      ({ acc with aggregate := .confidence wide }.finish target false).1 =
        (Datum.text (intervalText lower higher)).convert target ∧
      low.atMost high = true ∧ lower.atMost low = true ∧ high.atMost higher = true ∧
      ∀ x ∈ [low, high, lower, higher], Text.readDouble? (Text.stripped (Layout.plain.render x)) = some x := by
  obtain ⟨p, positive, exact_p⟩ := narrow.score_standing
  obtain ⟨q, _, exact_q⟩ := wide.score_standing
  have le := ConfidenceLevel.score_mono narrow wide surer p q exact_p exact_q
  obtain ⟨ordered, left, right⟩ :=
    acc.moments.interval_nested acc.count counted _ _ p q exact_p exact_q positive le
  refine ⟨_, _, _, _, interval_answer acc narrow target kind counted,
    interval_answer { acc with aggregate := .confidence wide } wide target rfl counted, ordered, left, right, ?_⟩
  intro x member
  simp only [List.mem_cons, List.not_mem_nil, or_false] at member
  rcases member with rfl | rfl | rfl | rfl <;> exact bound_read _

-- An infinite mean over infinite squares: the lower bound is no number before it is rounded to thousandths.
theorem intervals_nested_infinite :
    let acc : Accumulator :=
      { empty (.confidence .p80) .double with count := 2, moments := ⟨.infinity false, .infinity false⟩ }
    acc.aggregate = .confidence .p80 ∧ 1 ≤ acc.count ∧
      ConfidenceLevel.p80.permille ≤ ConfidenceLevel.p999.permille ∧
      (acc.finish .text false).1 = .ok (.text "(0.0, 9.223372036854776E15)") ∧
      ∃ low high lower higher,
        (acc.finish .text false).1 = (Datum.text (intervalText low high)).convert .text ∧
        ({ acc with aggregate := .confidence .p999 }.finish .text false).1 =
          (Datum.text (intervalText lower higher)).convert .text ∧
        low.atMost high = true ∧ lower.atMost low = true ∧ high.atMost higher = true := by
  intro acc
  obtain ⟨low, high, lower, higher, inner, outer, ordered, left, right, _⟩ :=
    intervals_nested acc .p80 .p999 .text rfl (by decide) (by decide)
  exact ⟨rfl, by decide, by decide, by decide +kernel, low, high, lower, higher, inner, outer, ordered, left, right⟩

-- Two rows or more have a margin that is a number and not negative, so one with the standing of the mean is
-- rounded to somewhere between the bounds.
theorem interval_around (moments : Moments Binary64) (n : Nat) (level : ConfidenceLevel) (two : 2 ≤ n)
    (few : n < 2 ^ 64) (squares : zero.atMost moments.squares = true) (μ : ℚ)
    (exact_mean : moments.mean.standing = ofRat μ) :
    let bounds := moments.interval (.ofNat n) level.score
    ∃ x : Binary64, x.standing = ofRat μ ∧ bounds.1.atMost x.toThousandths = true ∧
      x.toThousandths.atMost bounds.2 = true := by
  intro bounds
  obtain ⟨divisor, g, positive, exact_g, divides⟩ := variance_divides true moments n two few
  have variance : moments.sampleVariance (.ofNat n) = moments.squares / divisor := divides
  have low := sqrt_not_negative _ (div_not_negative _ _ g squares exact_g positive)
  obtain ⟨_, twoLow, exact_n⟩ := count_standing n 2 two (by norm_num) few
  obtain ⟨index, later, form, _⟩ := positive_form _ _ exact_n (two_pos.trans_le twoLow)
  obtain ⟨root, rootPos, rooted, inside⟩ := sqrt_of_index index.val later
  rw [ofIndex, dif_pos index.isLt, ofIndex, dif_pos (inside index.isLt)] at rooted
  have rootValue : 0 < value false root := by
    rw [value_eq_units]
    exact div_pos (Nat.cast_pos.mpr (units_pos root rootPos)) unit_rat_pos
  have spread := div_not_negative _ (finite false ⟨root, inside index.isLt⟩) _ low rfl rootValue
  rw [← rooted, ← variance, ← form] at spread
  obtain ⟨s, scorePos, exact_score⟩ := level.score_standing
  obtain ⟨margin, _⟩ := mul_not_negative_mono _ _ _ s s exact_score exact_score scorePos (le_refl s) spread
  have flat := is_zero_standing zero rfl
  have stands := add_rounded _ zero μ 0 exact_mean (by exact_mod_cast flat)
  rw [add_zero, rounded_exact _ μ exact_mean] at stands
  exact ⟨_, stands, thousandths_sum_mono _ _ _ (neg_not_positive _ margin), thousandths_sum_mono _ _ _ margin⟩

/-- A confidence interval of two finite rows or more holds the mean that was gathered of them, up to a thousandth on
either side, as long as that mean has no more than 2^52 thousandths. -/
theorem interval_holds_mean [PowerFunction] (level : ConfidenceLevel) (dataType target : DataType) (rows : List Datum)
    (finite : ∀ x ∈ gleaned Datum.toDouble rows, x.isFinite = true)
    (two : 2 ≤ (gleaned Datum.toDouble rows).length) (few : (gleaned Datum.toDouble rows).length < 2 ^ 64)
    (μ : ℚ)
    (mean : ((empty (.confidence level) dataType).fed rows false).moments.mean.standing = ofRat μ) :
    ∃ low high l h,
      (((empty (.confidence level) dataType).fed rows false).finish target false).1 =
        (Datum.text (intervalText low high)).convert target ∧
      low.standing = ofRat l ∧ high.standing = ofRat h ∧
      (1000 * |μ| ≤ 2 ^ 52 → l - 1 / 1000 ≤ μ ∧ μ ≤ h + 1 / 1000) ∧
      (|μ| ≤ 9200000000000000 →
        l - (1 / 1000 + |μ| / 2 ^ 51) ≤ μ ∧ μ ≤ h + (1 / 1000 + |μ| / 2 ^ 51)) ∧
      |l| ≤ 9223372036854776 ∧ |h| ≤ 9223372036854776 := by
  obtain ⟨_, kind, count, gathered⟩ := fed_gathers (.confidence level) (.confidence level) dataType rows
  generalize (empty (.confidence level) dataType).fed rows false = acc at kind count gathered mean ⊢
  rw [← count] at two few
  have nonempty : gleaned Datum.toDouble rows ≠ [] := List.ne_nil_of_length_pos (by omega)
  have squares : zero.atMost acc.moments.squares = true := by
    rw [count] at few
    rw [gathered] at mean ⊢
    cases Moments.gather_settles _ nonempty finite few with
    | level _ settled => exact settled.squares
    | burst _ burst =>
        have lost := burst.mean
        rw [(is_finite_iff _).mpr ⟨μ, mean⟩] at lost
        cases lost
  obtain ⟨x, exact_x, left, right⟩ := interval_around acc.moments acc.count level two few squares μ mean
  obtain ⟨l, exact_l, lBound⟩ :=
    to_thousandths_within (acc.moments.mean - acc.moments.margin (.ofNat acc.count) level.score)
  obtain ⟨h, exact_h, hBound⟩ :=
    to_thousandths_within (acc.moments.mean + acc.moments.margin (.ofNat acc.count) level.score)
  rw [Moments.interval_eq] at left right
  have around (r e : ℚ) (stands : x.toThousandths.standing = ofRat r) (near : |r - μ| ≤ e) :
      l - e ≤ μ ∧ μ ≤ h + e := by
    rw [at_most_exact _ _ _ _ exact_l stands] at left
    rw [at_most_exact _ _ _ _ stands exact_h] at right
    obtain ⟨under, above⟩ := abs_le.mp near
    exact ⟨by linarith, by linarith⟩
  refine ⟨_, _, l, h, interval_answer acc level target kind (by omega), exact_l, exact_h,
    fun small => ?_, fun small => ?_, lBound, hBound⟩
  · obtain ⟨r, stands, near⟩ := to_thousandths_near x μ exact_x small
    exact around r _ stands near
  · obtain ⟨r, stands, near⟩ := to_thousandths_relative x μ exact_x small
    exact around r _ stands near

theorem interval_holds_mean_large :
    let rows : List Datum := [.integer 4503599627370, .null, .text "4503599627370.25"]
    let numbers := gleaned Datum.toDouble rows
    let acc := (empty (.confidence .p80) .double).fed rows false
    let μ : ℚ := 36028797018961 / 8
    (∀ x ∈ numbers, x.isFinite = true) ∧ numbers.length = 2 ∧ acc.moments.mean.standing = ofRat μ ∧
      (acc.finish .text false).1 = .ok (.text "(4.503599627369965E12, 4.503599627370285E12)") ∧
      ∃ low high l h, (acc.finish .text false).1 = (Datum.text (intervalText low high)).convert .text ∧
        low.standing = ofRat l ∧ high.standing = ofRat h ∧ l - 1 / 1000 ≤ μ ∧ μ ≤ h + 1 / 1000 := by
  intro rows numbers acc μ
  have finite : ∀ x ∈ numbers, x.isFinite = true := by decide +kernel
  have count : numbers.length = 2 := by decide +kernel
  have gathered : acc.moments.mean = .finite false ⟨0x4290624dd2f1a880, by decide⟩ := by decide +kernel
  have mean : acc.moments.mean.standing = ofRat μ := by
    rw [gathered, standing, value]
    norm_num [μ]
  obtain ⟨low, high, l, h, answer, exact_l, exact_h, near, _⟩ :=
    interval_holds_mean .p80 .double .text rows finite (by rw [count]) (by rw [count]; norm_num) μ mean
  obtain ⟨left, right⟩ := near (by norm_num [μ])
  exact ⟨finite, count, mean, by decide +kernel, low, high, l, h, answer, exact_l, exact_h, left, right⟩

-- A mean past the last word of thousandths is left far behind.
theorem interval_leaves_mean :
    let far := (empty (.confidence .p95) .double).fed
      [.double (.ofBits 0x7e37e43c8800759c), .double (.ofBits 0x7e37e43c8800759c)] false
    let bounds (acc : Accumulator) := acc.moments.interval (.ofNat acc.count) ConfidenceLevel.p95.score
    far.moments = ⟨.ofBits 0x7e37e43c8800759c, .zero⟩ ∧
      (far.finish .text false).1 = .ok (.text "(9.223372036854776E15, 9.223372036854776E15)") ∧
      ¬∀ (rows : List Datum) (μ l h : ℚ),
        let acc := (empty (.confidence .p95) .double).fed rows false
        (∀ x ∈ gleaned Datum.toDouble rows, x.isFinite = true) → 2 ≤ acc.count →
          acc.moments.mean.standing = ofRat μ → acc.moments.squares.isFinite = true →
          (bounds acc).1.standing = ofRat l → (bounds acc).2.standing = ofRat h →
          l - 1 / 1000 ≤ μ ∧ μ ≤ h + 1 / 1000 := by
  intro far bounds
  have mean : far.moments.mean = .finite false ⟨0x7e37e43c8800759c, by decide⟩ := by decide +kernel
  have low : (bounds far).1 = .finite false ⟨0x4340624dd2f1a9fc, by decide⟩ := by decide +kernel
  have high : (bounds far).2 = .finite false ⟨0x4340624dd2f1a9fc, by decide⟩ := by decide +kernel
  refine ⟨by decide +kernel, by decide +kernel, fun always => ?_⟩
  have top (x : Binary64) (same : x = .finite false ⟨0x4340624dd2f1a9fc, by decide⟩) :
      x.standing = ofRat 9223372036854776 := by
    rw [same, standing, value]
    norm_num
  have exact_mean : far.moments.mean.standing = ofRat (value false 0x7e37e43c8800759c) := by rw [mean]; rfl
  have large : (2 : ℚ) ^ (60 : ℤ) ≤ value false 0x7e37e43c8800759c := by
    have power : (2 : ℚ) ^ (60 : ℤ) ≤ 2 ^ (944 : ℤ) := zpow_le_zpow_right₀ one_le_two (by decide)
    rw [value]
    norm_num at power ⊢
    generalize (2 : ℚ) ^ 944 = scale at power ⊢
    linarith
  obtain ⟨_, wrong⟩ := always [.double (.ofBits 0x7e37e43c8800759c), .double (.ofBits 0x7e37e43c8800759c)] _ _ _
    (by decide +kernel) (by decide +kernel) exact_mean (by decide +kernel) (top _ low) (top _ high)
  norm_num at large
  linarith

end Aggregation.Accumulator
