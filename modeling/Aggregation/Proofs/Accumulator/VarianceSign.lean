import Mathlib
import Aggregation.Proofs.Accumulator.Variance
import Aggregation.Proofs.Steady

set_option autoImplicit false

namespace Aggregation.Accumulator

open Binary64 Standing

theorem variance_divides (sample : Bool) (moments : Moments Binary64) (n : Nat)
    (least : leastCount sample ≤ n) (few : n < 2 ^ 64) :
    ∃ divisor g, 0 < g ∧ divisor.standing = ofRat g ∧
      moments.variance sample (.ofNat n) = moments.squares / divisor := by
  cases sample with
  | false =>
      obtain ⟨g, low, exact_g⟩ := count_standing n 1 least (by norm_num) few
      rw [Nat.cast_one] at low
      exact ⟨_, g, by linarith, exact_g, rfl⟩
  | true =>
      obtain ⟨g, low, exact_g⟩ := count_standing n 2 least (by norm_num) few
      rw [Nat.cast_ofNat] at low
      have one : (1 : Binary64).standing = ofRat 1 := by
        have whole := of_nat_standing 1 (by norm_num)
        rw [Nat.cast_one] at whole
        exact whole
      have between : g - 1 ∈ Set.uIcc 1 g := Set.Icc_subset_uIcc ⟨by linarith, by linarith⟩
      obtain ⟨h, inside, exact_h⟩ := rounded_between _ _ _ _ 1 g (sub_rounded _ _ g 1 exact_g one)
        (rounded_exact _ 1 one) (rounded_exact _ g exact_g) between
      rw [Set.uIcc_of_le (by linarith)] at inside
      exact ⟨_, h, by linarith [inside.1], exact_h, rfl⟩

theorem reports_shape (aggregate : Aggregate) (sample : Bool) (shape : Binary64 → Binary64)
    (reports : Reports aggregate sample shape) (x : Binary64) :
    (zero.atMost x = true → zero.atMost (shape x) = true) ∧ (Sunk x → Sunk (shape x)) := by
  cases reports with
  | populationVariance => exact ⟨id, id⟩
  | populationDeviation => exact ⟨sqrt_not_negative x, sunk_sqrt x⟩
  | sampleVariance => exact ⟨id, id⟩
  | sampleDeviation => exact ⟨sqrt_not_negative x, sunk_sqrt x⟩

/-- Of finite doubles a variance or its root is not negative just if they are steady; if they are not, the answer is
negative infinity or no number. -/
theorem variance_sign [PowerFunction] (aggregate : Aggregate) (sample : Bool) (shape : Binary64 → Binary64)
    (reports : Reports aggregate sample shape) (dataType : DataType) (rows : List Datum)
    (finite : ∀ x ∈ gleaned Datum.toDouble rows, x.isFinite = true)
    (least : leastCount sample ≤ (gleaned Datum.toDouble rows).length)
    (few : (gleaned Datum.toDouble rows).length < 2 ^ 64) :
    let numbers := gleaned Datum.toDouble rows
    ∃ x, (((empty aggregate dataType).fed rows false).finish .double false).1 = .ok (.double x) ∧
      (zero.atMost x = true ↔ Moments.Steady numbers) ∧ (¬Moments.Steady numbers → Sunk x) ∧
      ((∀ a ∈ numbers, ∀ b ∈ numbers, (a - b).isFinite = true) → zero.atMost x = true) := by
  intro numbers
  have nonempty : numbers ≠ [] := by
    intro none
    rw [show gleaned Datum.toDouble rows = [] from none] at least
    cases sample <;> simp [leastCount] at least
  have answer := fed_answer aggregate sample shape reports dataType .double rows
  simp only [if_pos least] at answer
  obtain ⟨divisor, g, positive, exact_g, divides⟩ :=
    variance_divides sample (.gather .ofNat numbers) numbers.length least few
  obtain ⟨index, _, rfl, _⟩ := positive_form divisor g exact_g positive
  rw [divides] at answer
  obtain ⟨stays, sinks⟩ :=
    reports_shape aggregate sample shape reports ((Moments.gather .ofNat numbers).squares / .finite false index)
  refine ⟨_, answer, ?_⟩
  cases Moments.gather_settles numbers nonempty finite few with
  | level steady level =>
      have low := stays (div_not_negative _ _ g level.squares exact_g positive)
      exact ⟨⟨fun _ => steady, fun _ => low⟩, absurd steady, fun _ => low⟩
  | burst unsteady burst =>
      have sunk := sinks (sunk_div _ index burst.squares)
      have negative := sunk_negative _ sunk
      refine ⟨⟨fun low => ?_, fun steady => absurd steady unsteady⟩, fun _ => sunk, fun near => ?_⟩
      · rw [negative] at low
        cases low
      · exact absurd (Moments.steady_of_differences numbers finite few near) unsteady

theorem variance_sign_squares :
    let rows : List Datum := [.double (.ofBits 0x6974e718d7d7625a), .double (.ofBits 0xe974e718d7d7625a)]
    let numbers := gleaned Datum.toDouble rows
    Reports .populationVariance false id ∧ (∀ x ∈ numbers, x.isFinite = true) ∧
      leastCount false ≤ numbers.length ∧ numbers.length < 2 ^ 64 ∧
      (((empty .populationVariance .double).fed rows false).finish .double false).1 =
        .ok (.double (.infinity false)) ∧
      Moments.Steady numbers := by
  intro rows numbers
  have finite : ∀ x ∈ numbers, x.isFinite = true := by decide +kernel
  have count : numbers.length = 2 := by decide +kernel
  have least : leastCount false ≤ numbers.length := by rw [count]; decide
  have few : numbers.length < 2 ^ 64 := by rw [count]; norm_num
  obtain ⟨x, answer, sign, _⟩ :=
    variance_sign .populationVariance false id .populationVariance .double rows finite least few
  have infinite : (((empty .populationVariance .double).fed rows false).finish .double false).1 =
      .ok (.double (.infinity false)) := by decide +kernel
  rw [infinite] at answer
  cases answer
  exact ⟨.populationVariance, finite, least, few, infinite, sign.mp infinity_not_negative⟩

theorem variance_sign_ends :
    let rows : List Datum := [.double (.ofBits 0xffefffffffffffff), .double (.ofBits 0x7fefffffffffffff)]
    let answer (aggregate : Aggregate) (rows : List Datum) :=
      (((empty aggregate .double).fed rows false).finish .double false).1
    answer .populationVariance rows = .ok (.double (.infinity true)) ∧
      answer .sampleVariance rows = .ok (.double (.infinity true)) ∧
      answer .populationDeviation rows = .ok (.double .nan) ∧
      answer .sampleDeviation rows = .ok (.double .nan) ∧
      ¬∀ rows, gleaned Datum.toDouble rows ≠ [] →
        (∀ x ∈ gleaned Datum.toDouble rows, x.isFinite = true) →
        ∃ x, answer .populationVariance rows = .ok (.double x) ∧ zero.atMost x = true := by
  intro rows answer
  have sunk : answer .populationVariance rows = .ok (.double (.infinity true)) := by decide +kernel
  refine ⟨sunk, by decide +kernel, by decide +kernel, by decide +kernel, fun never => ?_⟩
  obtain ⟨x, answered, low⟩ := never rows (by decide +kernel) (by decide +kernel)
  rw [sunk] at answered
  cases answered
  rw [sunk_negative _ .infinity] at low
  cases low

end Aggregation.Accumulator
