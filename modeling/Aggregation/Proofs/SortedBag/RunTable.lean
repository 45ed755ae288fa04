import Mathlib
import Aggregation.Proofs.Bisection
import Aggregation.SortedBag.RunTable

set_option autoImplicit false

namespace Aggregation.RunTable

def Owns (lengths : List Nat) (run position : Nat) : Prop :=
  (lengths.take run).sum ≤ position ∧ position < (lengths.take (run + 1)).sum

theorem run_ends_length (start : Nat) (lengths : List Nat) :
    (runEnds start lengths).length = lengths.length := by
  induction lengths generalizing start with
  | nil => rfl
  | cons length lengths ih => rw [runEnds, List.length_cons, List.length_cons, ih]

theorem run_ends_at (start : Nat) (lengths : List Nat) (run : Nat) (inside : run < lengths.length) :
    (runEnds start lengths)[run]? = some (start + (lengths.take (run + 1)).sum) := by
  induction lengths generalizing start run with
  | nil => cases inside
  | cons length lengths ih =>
      cases run with
      | zero => simp [runEnds]
      | succ run =>
          rw [runEnds, List.getElem?_cons_succ, ih _ run (Nat.lt_of_succ_lt_succ inside),
            List.take_succ_cons, List.sum_cons, Nat.add_assoc]

theorem size_of_lengths (lengths : List Nat) : (ofLengths lengths).size = lengths.sum := by
  rw [size, ofLengths, Array.back?, List.size_toArray, run_ends_length, List.getElem?_toArray]
  cases lengths with
  | nil => rfl
  | cons length rest =>
      rw [run_ends_at 0 _ _ (by simp), Option.getD_some, Nat.zero_add, List.length_cons,
        Nat.add_sub_cancel, List.take_of_length_le (by simp)]

theorem owns_inside (lengths : List Nat) (run position : Nat) (owns : Owns lengths run position) :
    run < lengths.length := by
  by_contra outside
  obtain ⟨low, high⟩ := owns
  rw [List.take_of_length_le (by omega)] at low high
  omega

theorem owns_unique (lengths : List Nat) (run other position : Nat) (owns : Owns lengths run position)
    (also : Owns lengths other position) : other = run := by
  obtain ⟨low, high⟩ := owns
  obtain ⟨otherLow, otherHigh⟩ := also
  rcases Nat.lt_trichotomy other run with less | same | more
  · have before : (lengths.take (other + 1)).sum ≤ (lengths.take run).sum :=
      List.monotone_sum_take lengths less
    omega
  · exact same
  · have before : (lengths.take (run + 1)).sum ≤ (lengths.take other).sum :=
      List.monotone_sum_take lengths more
    omega

theorem owns_exists (lengths : List Nat) (position : Nat) (inside : position < lengths.sum) :
    ∃ run, Owns lengths run position := by
  induction lengths generalizing position with
  | nil => cases inside
  | cons length lengths ih =>
      by_cases first : position < length
      · exact ⟨0, by simp [Owns, first]⟩
      · rw [List.sum_cons] at inside
        obtain ⟨run, low, high⟩ := ih (position - length) (by omega)
        refine ⟨run + 1, ?_, ?_⟩
        · rw [List.take_succ_cons, List.sum_cons]
          omega
        · rw [List.take_succ_cons, List.sum_cons]
          omega

theorem ends_at (lengths : List Nat) (run : Nat) (inside : run < lengths.length) :
    (ofLengths lengths).ends[run]? = some (lengths.take (run + 1)).sum := by
  rw [ofLengths, List.getElem?_toArray, run_ends_at 0 lengths run inside, Nat.zero_add]

theorem owner_of_owns (lengths : List Nat) (run position : Nat) (owns : Owns lengths run position) :
    (ofLengths lengths).owner? position = some run := by
  have inside := owns_inside lengths run position owns
  obtain ⟨low, high⟩ := owns
  have whole : (lengths.take (run + 1)).sum ≤ (lengths.take lengths.length).sum :=
    List.monotone_sum_take lengths inside
  rw [List.take_length] at whole
  rw [owner?, size_of_lengths, if_pos (Nat.lt_of_lt_of_le high whole), ofLengths, List.size_toArray,
    run_ends_length, ← ofLengths]
  congr 1
  refine partition_point_eq _ _ run ⟨inside.le, fun i left => ?_, fun i right less => ?_⟩
  · have ended : (lengths.take (i + 1)).sum ≤ (lengths.take run).sum :=
      List.monotone_sum_take lengths left
    simp only [ends_at lengths i (by omega), Option.any_some, decide_eq_true_eq]
    omega
  · have later : (lengths.take (run + 1)).sum ≤ (lengths.take (i + 1)).sum :=
      List.monotone_sum_take lengths (Nat.succ_le_succ right)
    simp only [ends_at lengths i less, Option.any_some, decide_eq_false_iff_not]
    omega

theorem owner_past (lengths : List Nat) (position : Nat) (past : lengths.sum ≤ position) :
    (ofLengths lengths).owner? position = none := by
  rw [owner?, size_of_lengths, if_neg (not_lt.mpr past)]

theorem owner_inside (lengths : List Nat) (position run : Nat)
    (owner : (ofLengths lengths).owner? position = some run) : run < lengths.length := by
  by_cases inside : position < lengths.sum
  · obtain ⟨other, owns⟩ := owns_exists lengths position inside
    rw [owner_of_owns lengths other position owns, Option.some.injEq] at owner
    exact owner ▸ owns_inside lengths other position owns
  · rw [owner_past lengths position (not_lt.mp inside)] at owner
    cases owner

theorem ends_eq (lengths : List Nat) :
    (ofLengths lengths).ends.toList =
      (List.range lengths.length).map fun run => (lengths.take (run + 1)).sum := by
  refine List.ext_getElem? fun run => ?_
  by_cases inside : run < lengths.length
  · rw [Array.getElem?_toList, ends_at lengths run inside, List.getElem?_map,
      List.getElem?_range inside, Option.map_some]
  · have length : (ofLengths lengths).ends.toList.length = lengths.length := run_ends_length 0 lengths
    rw [List.getElem?_eq_none (by omega), List.getElem?_eq_none (by simpa using inside)]

theorem last_end (lengths : List Nat) (filled : lengths ≠ []) :
    (ofLengths lengths).ends.back? = some lengths.sum := by
  have positive := List.length_pos_iff.mpr filled
  have size : (ofLengths lengths).ends.size = lengths.length := run_ends_length 0 lengths
  rw [Array.back?, size, ends_at lengths _ (by omega), Nat.sub_add_cancel positive, List.take_length]

theorem first_longest_chosen (chosen longest index : Nat) (lengths : List Nat) :
    firstLongest (some chosen) longest index lengths ≠ none := by
  induction lengths generalizing chosen longest index with
  | nil => exact Option.some_ne_none chosen
  | cons length lengths ih =>
      rw [firstLongest]
      split
      · exact ih _ _ _
      · exact ih _ _ _

theorem mode_none_iff (lengths : List Nat) (occurring : ∀ length ∈ lengths, 1 ≤ length) :
    (ofLengths lengths).mode = none ↔ lengths = [] := by
  cases lengths with
  | nil => exact ⟨fun _ => rfl, fun _ => rfl⟩
  | cons length rest =>
      have one : 0 < length := occurring length List.mem_cons_self
      rw [ofLengths, firstLongest, if_pos one]
      exact ⟨fun unchosen => absurd unchosen (first_longest_chosen 0 length 1 rest),
        fun empty => absurd empty (List.cons_ne_nil _ _)⟩

theorem first_longest_inside (chosen : Option Nat) (longest index run : Nat) (lengths : List Nat)
    (found : firstLongest chosen longest index lengths = some run) :
    chosen = some run ∨ run < index + lengths.length := by
  induction lengths generalizing chosen longest index with
  | nil => exact .inl found
  | cons length lengths ih =>
      rw [List.length_cons]
      rw [firstLongest] at found
      split at found
      · rcases ih _ _ _ found with same | inside
        · rw [Option.some.injEq] at same
          omega
        · omega
      · rcases ih _ _ _ found with same | inside
        · exact .inl same
        · omega

theorem mode_inside (lengths : List Nat) (run : Nat) (found : (ofLengths lengths).mode = some run) :
    run < lengths.length := by
  rcases first_longest_inside none 0 0 run lengths found with absent | inside
  · cases absent
  · omega

end Aggregation.RunTable
