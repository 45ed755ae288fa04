import Mathlib
import Aggregation.Proofs.Accumulator.Average
import Aggregation.Proofs.Accumulator.Combined
import Aggregation.Proofs.Accumulator.ExactSum
import Aggregation.Proofs.Binary64.Closest
import Aggregation.Proofs.Binary64.Integers

set_option autoImplicit false

namespace Aggregation

namespace Word

def extent (words : List Int64) : Nat :=
  (words.map (·.toInt.natAbs)).sum

theorem extent_cons (word : Int64) (words : List Int64) :
    extent (word :: words) = word.toInt.natAbs + extent words := by
  rw [extent, List.map_cons, List.sum_cons, extent]

theorem extent_perm (words others : List Int64) (perm : words.Perm others) : extent words = extent others :=
  (perm.map _).sum_eq

theorem extent_prefix (words part : List Int64) (within : part <+: words) : extent part ≤ extent words :=
  (within.sublist.map _).sum_le_sum fun _ _ => Nat.zero_le _

theorem total_le_extent (words : List Int64) : (total words).natAbs ≤ extent words := by
  induction words with
  | nil => exact le_refl _
  | cons word words ih =>
      rw [total_cons, extent_cons]
      exact (Int.natAbs_add_le _ _).trans (Nat.add_le_add_left ih _)

end Word

namespace Accumulator

open Binary64

theorem gleaned_integers (words : List Int64) :
    gleaned Datum.toDouble (words.map .integer) = words.map (.ofInt ·.toInt) := by
  induction words with
  | nil => rfl
  | cons word words ih =>
      rw [List.map_cons, gleaned_cons _ _ _ Datum.noConfusion, ih]
      rfl

theorem merged_from (start : Int) (words : List Int64)
    (small : start.natAbs + Word.extent words ≤ 2 * binade) :
    merged (· + ·) (some (ofInt start)) (words.map (ofInt ·.toInt)) = some (ofInt (start + Word.total words)) := by
  induction words generalizing start with
  | nil => rw [Word.total, List.map_nil, List.map_nil, List.sum_nil, Int.add_zero]; rfl
  | cons word words ih =>
      rw [Word.extent_cons] at small
      have sum := of_int_add start word.toInt (by omega) (by omega)
      have step : merged (· + ·) (some (ofInt start)) ((word :: words).map (ofInt ·.toInt)) =
          merged (· + ·) (some (ofInt start + ofInt word.toInt)) (words.map (ofInt ·.toInt)) := rfl
      rw [step, sum, ih _ (by omega), Word.total_cons, Int.add_assoc]

theorem merged_integers (words : List Int64) (present : words ≠ []) (small : Word.extent words ≤ 2 * binade) :
    merged (· + ·) none (words.map (ofInt ·.toInt)) = some (ofInt (Word.total words)) := by
  cases words with
  | nil => exact absurd rfl present
  | cons word words =>
      rw [Word.extent_cons] at small
      rw [Word.total_cons]
      exact merged_from word.toInt words small

theorem integers_averaged [PowerFunction] (dataType : DataType) (words : List Int64) (present : words ≠ [])
    (few : words.length ≤ 2 ^ 53) (small : Word.extent words ≤ 2 ^ 53) :
    (((empty .average dataType).fed (words.map .integer) false).finish .double false).1 =
      .ok (.double (ofRatio (Word.total words < 0) (Word.total words).natAbs words.length)) := by
  have whole : 2 * binade = 2 ^ 53 := by decide
  have start : Keeps .double (· + ·) .average dataType (empty .average dataType) [] := ⟨rfl, rfl, rfl, rfl⟩
  obtain ⟨_, _, keeps⟩ := fed_kept _ (add_keeps (average_merges dataType)) _ [] (words.map .integer) start
  have positive : 0 < words.length := List.length_pos_iff.mpr present
  have total := Word.total_le_extent words
  have running := keeps.running
  have count := keeps.count
  rw [List.nil_append, gleaned_integers] at running count
  rw [merged_integers words present (by omega)] at running
  rw [List.length_map] at count
  have fits : (words.length : Int) ≤ Word.greatest := by
    rw [Word.greatest]
    omega
  change answer _ .double = _
  rw [average_answer _ _ .double keeps.kind running, count, quotient]
  simp only [if_neg positive.ne', if_pos fits]
  rw [of_int_div _ _ (by omega) (by omega) positive]
  rfl

theorem integers_summed [PowerFunction] (words : List Int64) (present : words ≠ [])
    (small : Word.extent words ≤ 2 ^ 53) :
    ∃ sum, (((empty .sum .integer).fed (words.map .integer) false).finish .integer false).1 =
      .ok (.integer sum) ∧ sum.toInt = Word.total words := by
  have none_null : withoutNull (words.map Datum.integer) = words.map .integer :=
    List.filter_eq_self.mpr (List.forall_mem_map.mpr fun _ _ => rfl)
  have reads : Reads Datum.toInteger (withoutNull (words.map .integer)) words := by
    rw [none_null, Reads, List.map_map]
    rfl
  obtain ⟨_, kept, sums⟩ := taken_within _ [] words none _ empty_sums reads fun part within => by
    have total := Word.total_le_extent part
    have bound := Word.extent_prefix words part within
    rw [List.nil_append, Word.Fits, Word.least, Word.greatest]
    omega
  have answer := sums_answer _ _ kept sums
  rw [List.nil_append] at sums
  cases sums.exact with
  | unstarted => exact absurd rfl present
  | sum _ sum _ same => exact ⟨sum, answer, same⟩

/-- Where at most 2^53 integers have magnitudes that add up to no more than 2^53, their average is the double nearest to
their sum over their number, and the sum is the one that an integer sum of the same rows answers. -/
theorem integer_average_nearest [PowerFunction] (dataType : DataType) (words : List Int64) (present : words ≠ [])
    (few : words.length ≤ 2 ^ 53) (small : Word.extent words ≤ 2 ^ 53) :
    let averaged (words : List Int64) :=
      (((empty .average dataType).fed (words.map .integer) false).finish .double false).1
    let total := Word.total words
    let mean := ofRatio (total < 0) total.natAbs words.length
    averaged words = .ok (.double mean) ∧ Nearest (total / words.length) mean ∧
      (∀ others, others.Perm words → averaged others = averaged words) ∧
      ∃ sum, (((empty .sum .integer).fed (words.map .integer) false).finish .integer false).1 =
        .ok (.integer sum) ∧ sum.toInt = total := by
  intro averaged total mean
  have positive : 0 < words.length := List.length_pos_iff.mpr present
  have averages := integers_averaged dataType words present few small
  refine ⟨averages, ?_, fun others perm => ?_, integers_summed words present small⟩
  · have stands := of_ratio_rounded (total < 0) total.natAbs words.length positive
    rw [signed_nat_abs] at stands
    have small : |((total : ℤ) : ℚ)| ≤ 2 ^ 53 := by
      rw [← Int.cast_abs, Int.abs_eq_natAbs]
      exact_mod_cast (Word.total_le_extent words).trans small
    have inside : |(total : ℚ) / words.length| * 2 ^ 0 ≤ 2 ^ 53 := by
      rw [pow_zero, mul_one, abs_div, Nat.abs_cast]
      exact (div_le_self (abs_nonneg _) (Nat.one_le_cast.mpr positive)).trans small
    obtain ⟨r, same, _⟩ := rounded_near (total / words.length) 0 (Nat.zero_le _) inside
    exact nearest_of_rounded _ r mean stands same
  · have other : others ≠ [] := mt (fun none => (none ▸ perm).nil_eq.symm) present
    have extent := Word.extent_perm others words perm
    have same := integers_averaged dataType others other (by rwa [perm.length_eq]) (by rwa [extent])
    rw [Word.total_perm others words perm, perm.length_eq] at same
    exact same.trans averages.symm

theorem integer_average_nearest_third :
    let words : List Int64 := [9007199254740989, -2, 1]
    words ≠ [] ∧ words.length ≤ 2 ^ 53 ∧ Word.extent words = 2 ^ 53 ∧
      (((empty .average .integer).fed (words.map .integer) false).finish .double false).1 =
        .ok (.double (ofRatio false 9007199254740988 3)) ∧
      Nearest (9007199254740988 / 3) (ofRatio false 9007199254740988 3) := by
  intro words
  have extent : Word.extent words = 2 ^ 53 := by decide
  have present : words ≠ [] := List.cons_ne_nil _ _
  obtain ⟨average, nearest, _⟩ := integer_average_nearest .integer words present (by decide) extent.le
  exact ⟨present, by decide, extent, average, nearest⟩

end Accumulator

end Aggregation
