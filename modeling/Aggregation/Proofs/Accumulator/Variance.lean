import Mathlib
import Aggregation.Proofs.Accumulator.Combined
import Aggregation.Proofs.Accumulator.Isolation
import Aggregation.Proofs.Moments

set_option autoImplicit false

namespace Aggregation.Accumulator

inductive Reports : Aggregate → Bool → (Binary64 → Binary64) → Prop where
  | populationVariance : Reports .populationVariance false id
  | populationDeviation : Reports .populationDeviation false Binary64.sqrt
  | sampleVariance : Reports .sampleVariance true id
  | sampleDeviation : Reports .sampleDeviation true Binary64.sqrt

def leastCount (sample : Bool) : Nat :=
  if sample then 2 else 1

structure Gathers (aggregate : Aggregate) (acc : Accumulator) (numbers : List Binary64) : Prop where
  kind : acc.aggregate = aggregate
  count : acc.count = numbers.length
  moments : acc.moments = .gather .ofNat numbers

theorem add_gathers (aggregate : Aggregate) (spread : Spread aggregate) (acc : Accumulator)
    (numbers : List Binary64) (row : Datum) (present : row ≠ .null) (gathers : Gathers aggregate acc numbers) :
    Kept Datum.toDouble (Gathers aggregate) acc numbers row (acc.add row false) := by
  obtain ⟨rfl, count, moments⟩ := gathers
  rw [add_plain acc row present, fold_spread acc row spread, moments, count]
  cases answer : row.toDouble with
  | error failure => exact .refused failure answer
  | ok x => exact .taken x _ answer ⟨rfl, by simp, (Moments.gather_push .ofNat numbers x).symm⟩

theorem fed_gathers [PowerFunction] (aggregate : Aggregate) (spread : Spread aggregate) (dataType : DataType)
    (rows : List Datum) :
    ((empty aggregate dataType).run (rows.map (.add · false))).map (·.1) = rows.map (told Datum.toDouble) ∧
      Gathers aggregate ((empty aggregate dataType).fed rows false) (gleaned Datum.toDouble rows) := by
  have start : Gathers aggregate (empty aggregate dataType) [] := ⟨rfl, rfl, rfl⟩
  obtain ⟨answers, _, gathers⟩ := fed_kept _ (add_gathers aggregate spread) _ [] rows start
  exact ⟨answers, gathers⟩

section Reports

variable (aggregate : Aggregate) (sample : Bool) (shape : Binary64 → Binary64)
  (reports : Reports aggregate sample shape)

include reports

theorem reports_spread : Spread aggregate := by
  cases reports with
  | populationVariance => exact .populationVariance
  | populationDeviation => exact .populationDeviation
  | sampleVariance => exact .sampleVariance
  | sampleDeviation => exact .sampleDeviation

theorem reports_outcome [PowerFunction] (acc : Accumulator) (kind : acc.aggregate = aggregate) :
    acc.outcome = .ok (if leastCount sample ≤ acc.count then
      .value (.double (shape (acc.moments.variance sample (.ofNat acc.count)))) else .missing) := by
  obtain ⟨aggregate, dataType, count, running, moments, product, reciprocals, held⟩ := acc
  subst kind
  cases reports <;> rfl

theorem reports_answer [PowerFunction] (acc : Accumulator) (target : DataType) (kind : acc.aggregate = aggregate) :
    (acc.finish target false).1 =
      if leastCount sample ≤ acc.count then
        (Datum.double (shape (acc.moments.variance sample (.ofNat acc.count)))).convert target
      else .ok .null := by
  change acc.answer target = _
  rw [answer, reports_outcome aggregate sample shape reports acc kind]
  split <;> rfl

theorem fed_answer [PowerFunction] (dataType target : DataType) (rows : List Datum) :
    let numbers := gleaned Datum.toDouble rows
    let moments := Moments.gather Binary64.ofNat numbers
    (((empty aggregate dataType).fed rows false).finish target false).1 =
      if leastCount sample ≤ numbers.length then
        (Datum.double (shape (moments.variance sample (.ofNat numbers.length)))).convert target
      else .ok .null := by
  intro numbers moments
  have spread := reports_spread aggregate sample shape reports
  obtain ⟨_, kind, count, gathered⟩ := fed_gathers aggregate spread dataType rows
  rw [reports_answer aggregate sample shape reports _ target kind, count, gathered]

end Reports

/-- A variance gathers the moments of the rows that can be read as doubles. In exact arithmetic these are their mean and
the sum of their squared distances from it, whatever their order. -/
theorem variance_gathered [PowerFunction] (aggregate : Aggregate) (sample : Bool) (shape : Binary64 → Binary64)
    (reports : Reports aggregate sample shape) (dataType target : DataType) (rows : List Datum)
    (numbers : List ℚ) (nonempty : numbers ≠ []) :
    let start := empty aggregate dataType
    let read := gleaned Datum.toDouble rows
    let gathered := Moments.gather Binary64.ofNat read
    let moments := Moments.gather Nat.cast numbers
    let n : ℚ := numbers.length
    let squares := (numbers.map fun x => (x - moments.mean) ^ 2).sum
    ((start.run (rows.map (.add · false))).map (·.1) = rows.map (told Datum.toDouble) ∧
      ((start.fed rows false).finish target false).1 =
        if leastCount sample ≤ read.length then
          (Datum.double (shape (gathered.variance sample (.ofNat read.length)))).convert target
        else .ok .null) ∧
      n * moments.mean = numbers.sum ∧
      moments.squares = squares ∧ squares = (numbers.map (· ^ 2)).sum - numbers.sum ^ 2 / n ∧
      moments.variance false n = squares / n ∧ moments.variance true n = squares / (n - 1) ∧
      0 ≤ moments.variance sample n ∧
      ∀ others : List ℚ, others.Perm numbers → Moments.gather Nat.cast others = moments := by
  intro start read gathered moments n squares
  have spread := reports_spread aggregate sample shape reports
  have describes := Moments.gather_describes numbers nonempty
  have deviations : moments.squares = squares := Moments.describes_deviations numbers moments nonempty describes
  have positive : 0 ≤ squares := List.sum_nonneg (List.forall_mem_map.mpr fun x _ => sq_nonneg _)
  have one : 1 ≤ n := Nat.one_le_cast.mpr (List.length_pos_iff.mpr nonempty)
  have population : moments.variance false n = squares / n := by
    rw [← deviations]
    rfl
  have sampled : moments.variance true n = squares / (n - 1) := by
    rw [← deviations]
    rfl
  refine ⟨⟨?_, ?_⟩, describes.mean, deviations, ?_, population, sampled, ?_, fun others perm => ?_⟩
  · exact (fed_gathers aggregate spread dataType rows).1
  · exact fed_answer aggregate sample shape reports dataType target rows
  · rw [← deviations, describes.squares]
  · cases sample with
    | false =>
        rw [population]
        exact div_nonneg positive (by linarith)
    | true =>
        rw [sampled]
        exact div_nonneg positive (by linarith)
  · have other : others ≠ [] := mt (fun none => (none ▸ perm).nil_eq.symm) nonempty
    exact Moments.describes_perm numbers others _ _ perm nonempty (Moments.gather_describes others other) describes

theorem variance_gathered_three :
    let rows : List Datum := [.integer 2, .text "b", .double (.ofInt 4), .null, .text " 9 "]
    let numbers : List ℚ := [2, 4, 9]
    let moments := Moments.gather Nat.cast numbers
    Reports .sampleVariance true id ∧ numbers ≠ [] ∧
      (((empty .sampleVariance .double).fed rows false).finish .double false).1 =
        .ok (.double (.ofBits 0x402a000000000000)) ∧
      moments.mean = 5 ∧ moments.variance true 3 = 13 ∧ Moments.gather Nat.cast [9, 2, 4] = moments := by
  intro rows numbers moments
  have nonempty : numbers ≠ [] := by simp [numbers]
  obtain ⟨⟨_, answer⟩, sum, _, squares, _, sampled, _, order⟩ :=
    variance_gathered .sampleVariance true id .sampleVariance .double .double rows numbers nonempty
  have mean : moments.mean = 5 := by
    norm_num [numbers] at sum
    linarith
  refine ⟨.sampleVariance, nonempty, ?_, mean, ?_, order _ ?_⟩
  · rw [answer]
    decide +kernel
  · rw [squares] at sampled
    norm_num [numbers] at sampled
    exact sampled
  · decide

end Aggregation.Accumulator
