import Mathlib
import Aggregation.Proofs.Accumulator.Interval
import Aggregation.Proofs.Binary64.Zeros

set_option autoImplicit false

namespace Aggregation

namespace Moments

open Binary64 Standing

-- Moments of a number and nothing else. A zero may change its sign in the mean, but not in the squares.
structure AtRest (q : ℚ) (moments : Moments Binary64) : Prop where
  mean : moments.mean.standing = ofRat q
  squares : moments.squares = zero

theorem at_rest_next (q : ℚ) (moments : Moments Binary64) (a : Binary64) (index : Nat) (later : 0 < index)
    (rest : AtRest q moments) (exact_a : a.standing = ofRat q) :
    AtRest q (moments.moved a (.ofIndex false index)) := by
  obtain ⟨mean, squares⟩ := rest
  -- Both deviations are zeros of some sign: the first moves nothing but a sign, their product adds nothing.
  obtain ⟨negative, deviation⟩ := sub_same a moments.mean q exact_a mean
  have stays := add_zero_standing moments.mean q mean negative
  obtain ⟨other, again⟩ := sub_same a _ q exact_a stays
  rw [moved, deviation, signed_zero_div negative index later, again, signed_zero_mul, squares]
  exact ⟨stays, zero_add_signed_zero _⟩

theorem gather_at_rest (q : ℚ) (numbers : List Binary64) (nonempty : numbers ≠ [])
    (same : ∀ a ∈ numbers, a.standing = ofRat q) : AtRest q (gather .ofNat numbers) := by
  induction numbers using List.reverseRecOn with
  | nil => exact absurd rfl nonempty
  | append_singleton before a ih =>
      obtain ⟨earlier, last⟩ := List.forall_mem_append.mp same
      have exact_a := last a List.mem_cons_self
      by_cases first : before = []
      · rw [first, List.nil_append, gather_one]
        exact ⟨exact_a, rfl⟩
      · obtain ⟨index, later, _, count⟩ := of_nat_form (before.length + 1) (Nat.succ_pos _)
        rw [gather_next .ofNat before a first, count]
        exact at_rest_next q _ a index later (ih first earlier) exact_a

theorem freedom_form (n : Nat) (two : 2 ≤ n) : ∃ index, 0 < index ∧ ofNat n - 1 = ofIndex false index := by
  have one : (1 : Binary64).standing = ofRat 1 := by
    exact_mod_cast of_nat_standing 1 (by norm_num)
  have least : rounded 2 = ofRat 2 := by
    have whole := of_nat_standing 2 (by norm_num)
    exact_mod_cast rounded_exact _ _ whole
  have above : ofRat 2 ≤ (ofNat n).standing := by
    rw [of_nat_rounded, ← least]
    exact rounded_mono (by exact_mod_cast two)
  obtain ⟨index, later, _, form⟩ := of_nat_form n (by omega)
  by_cases inside : index < finiteCount
  · rw [ofIndex, dif_pos inside] at form
    have exact_n : (ofNat n).standing = ofRat (value false index) := by rw [form]; rfl
    generalize value false index = g at exact_n
    rw [exact_n, of_rat_strict_mono.le_iff_le] at above
    have stands := sub_rounded _ _ g 1 exact_n one
    have positive : ofRat 0 < (ofNat n - 1).standing := by
      calc ofRat 0 < ofRat 1 := of_rat_strict_mono one_pos
        _ = rounded 1 := (rounded_exact _ 1 one).symm
        _ ≤ rounded (g - 1) := rounded_mono (by linarith)
        _ = (ofNat n - 1).standing := stands.symm
    rcases not_negative_cases _ (not_negative_rounded _ _ stands (by linarith)) with empty | ⟨i, iPos, _, same⟩
    · rw [is_zero_standing _ empty, Int.cast_zero] at positive
      exact absurd positive (lt_irrefl _)
    · exact ⟨i, iPos, same⟩
  · refine ⟨finiteCount, by decide, ?_⟩
    rw [ofIndex, dif_neg inside] at form
    rw [form, ofIndex, dif_neg (lt_irrefl _)]
    rfl

section AtRest

variable (q : ℚ) (moments : Moments Binary64) (rest : AtRest q moments) (n : Nat)

include rest

theorem variance_at_rest (sample : Bool) (least : Accumulator.leastCount sample ≤ n) :
    moments.variance sample (.ofNat n) = zero := by
  cases sample with
  | false =>
      obtain ⟨index, later, _, count⟩ := of_nat_form n least
      change moments.squares / ofNat n = _
      rw [rest.squares, count]
      exact signed_zero_div false index later
  | true =>
      obtain ⟨index, later, freedom⟩ := freedom_form n least
      change moments.squares / (ofNat n - 1) = _
      rw [rest.squares, freedom]
      exact signed_zero_div false index later

theorem margin_at_rest (two : 2 ≤ n) (level : ConfidenceLevel) :
    moments.margin (.ofNat n) level.score = zero := by
  have variance : moments.sampleVariance (.ofNat n) = zero := variance_at_rest q moments rest n true two
  obtain ⟨index, later, _, count⟩ := of_nat_form n (by omega)
  obtain ⟨root, above, rooted, _⟩ := sqrt_of_index index later
  obtain ⟨score, positive, exact_score⟩ := level.score_standing
  obtain ⟨place, _, form, _⟩ := positive_form _ score exact_score positive
  rw [margin, variance, sqrt_zero, count, rooted, form]
  change finite false place * (signedZero false / ofIndex false root) = _
  rw [signed_zero_div false root above]
  exact finite_mul_zero place

end AtRest

end Moments

namespace Binary64

theorem to_thousandths_same (x y : Binary64) (same : x.standing = y.standing) :
    x.toThousandths = y.toThousandths := by
  have flat (z : Binary64) (vanishes : z.isZero = true) : z.toThousandths = zero := by
    obtain ⟨negative, rfl⟩ := signed_zero_of_standing z (is_zero_standing z vanishes)
    cases negative <;> decide +kernel
  rcases standing_inj x y same with rfl | ⟨left, right⟩
  · rfl
  · rw [flat x left, flat y right]

end Binary64

theorem Moments.interval_at_rest (x : Binary64) (q : ℚ) (exact_x : x.standing = .ofRat q)
    (moments : Moments Binary64) (rest : moments.AtRest q) (n : Nat) (two : 2 ≤ n) (level : ConfidenceLevel) :
    moments.interval (.ofNat n) level.score = (x.toThousandths, x.toThousandths) := by
  have low := Binary64.sub_zero_standing _ q rest.mean false
  have high := Binary64.add_zero_standing _ q rest.mean false
  rw [interval_eq, margin_at_rest q moments rest n two level]
  rw [← exact_x] at low high
  exact Prod.ext (Binary64.to_thousandths_same _ x low) (Binary64.to_thousandths_same _ x high)

namespace Accumulator

open Binary64 Standing

section Rows

variable (s : Standing) (rows : List Datum)
  (alike : ∀ row ∈ rows, ∃ y, row.toDouble = .ok y ∧ y.standing = s)

include alike

theorem gleaned_alike :
    (gleaned Datum.toDouble rows).length = rows.length ∧ ∀ y ∈ gleaned Datum.toDouble rows, y.standing = s := by
  induction rows with
  | nil => exact ⟨rfl, fun y member => absurd member List.not_mem_nil⟩
  | cons row rows ih =>
      obtain ⟨⟨y, read, stands⟩, rest⟩ := List.forall_mem_cons.mp alike
      obtain ⟨count, others⟩ := ih rest
      have present : row ≠ .null := by
        rintro rfl
        cases read
      rw [gleaned_cons _ _ _ present, read]
      exact ⟨congrArg (· + 1) count, List.forall_mem_cons.mpr ⟨stands, others⟩⟩

theorem told_alike : rows.map (told Datum.toDouble) = rows.map fun _ => .ok .added := by
  refine List.map_congr_left fun row member => ?_
  obtain ⟨y, read, _⟩ := alike row member
  rw [told, read]
  split <;> rfl

end Rows

/-- Where every row is read as one finite double, a zero of either sign counting as zero, each variance is the positive
zero and both bounds of every interval are that double, rounded to thousandths. -/
theorem constant_without_spread [PowerFunction] (x : Binary64) (finite : x.isFinite = true) (dataType target : DataType)
    (rows : List Datum) (alike : ∀ row ∈ rows, ∃ y, row.toDouble = .ok y ∧ y.standing = x.standing) :
    (∀ aggregate sample shape, Reports aggregate sample shape →
      ((empty aggregate dataType).run (rows.map (.add · false))).map (·.1) = rows.map (fun _ => .ok .added) ∧
      (leastCount sample ≤ rows.length →
        (((empty aggregate dataType).fed rows false).finish target false).1 =
          (Datum.double .zero).convert target)) ∧
    ∀ level,
      ((empty (.confidence level) dataType).run (rows.map (.add · false))).map (·.1) =
        rows.map (fun _ => .ok .added) ∧
      (2 ≤ rows.length →
        (((empty (.confidence level) dataType).fed rows false).finish target false).1 =
          (Datum.text (intervalText x.toThousandths x.toThousandths)).convert target) := by
  obtain ⟨q, exact_x⟩ := (is_finite_iff x).mp finite
  obtain ⟨count, same⟩ := gleaned_alike x.standing rows alike
  rw [exact_x] at same
  have rest (least : 1 ≤ rows.length) : (Moments.gather .ofNat (gleaned Datum.toDouble rows)).AtRest q :=
    Moments.gather_at_rest q _ (List.ne_nil_of_length_pos (by omega)) same
  constructor
  · intro aggregate sample shape reports
    have spread := reports_spread aggregate sample shape reports
    refine ⟨(fed_gathers aggregate spread dataType rows).1.trans (told_alike x.standing rows alike), fun least => ?_⟩
    have low : 1 ≤ leastCount sample := by cases sample <;> decide
    have one := low.trans least
    have flat := Moments.variance_at_rest q _ (rest one) rows.length sample least
    have answer := fed_answer aggregate sample shape reports dataType target rows
    simp only [count, if_pos least, flat] at answer
    rw [answer]
    cases reports <;> rfl
  · intro level
    obtain ⟨answers, kind, counted, gathered⟩ :=
      fed_gathers (.confidence level) (.confidence level) dataType rows
    refine ⟨answers.trans (told_alike x.standing rows alike), fun two => ?_⟩
    have answer := interval_answer _ level target kind (by omega)
    simp only [counted, count, gathered] at answer
    rw [answer, Moments.interval_at_rest x q exact_x _ (rest (by omega)) _ two level]

theorem constant_without_spread_zeros :
    let rows : List Datum := [.text " -0 ", .integer 0, .boolean false, .double (signedZero true)]
    let answer (aggregate : Aggregate) (target : DataType) :=
      (((empty aggregate .double).fed rows false).finish target false).1
    zero.isFinite = true ∧ (∀ row ∈ rows, ∃ y, row.toDouble = .ok y ∧ y.standing = zero.standing) ∧
      Reports .sampleDeviation true Binary64.sqrt ∧ leastCount true ≤ rows.length ∧
      answer .sampleDeviation .double = .ok (.double zero) ∧
      answer (.confidence .p995) .text = .ok (.text "(0.0, 0.0)") := by
  intro rows answer
  have alike : ∀ row ∈ rows, ∃ y, row.toDouble = .ok y ∧ y.standing = zero.standing := by
    have flat (negative : Bool) : (signedZero negative).standing = zero.standing :=
      (signed_zero_standing negative).trans (signed_zero_standing false).symm
    simp only [rows, List.forall_mem_cons]
    exact ⟨⟨_, by decide +kernel, flat true⟩, ⟨_, by decide +kernel, flat false⟩, ⟨_, by decide +kernel, flat false⟩,
      ⟨_, rfl, flat true⟩, fun _ member => absurd member List.not_mem_nil⟩
  have least : leastCount true ≤ rows.length := by decide
  obtain ⟨variances, intervals⟩ := constant_without_spread zero rfl .double .double rows alike
  obtain ⟨_, texts⟩ := constant_without_spread zero rfl .double .text rows alike
  refine ⟨rfl, alike, .sampleDeviation, least, (variances _ _ _ .sampleDeviation).2 least, ?_⟩
  exact ((texts .p995).2 (by decide)).trans (by decide +kernel)

end Accumulator

end Aggregation
