import Mathlib
import Aggregation.Proofs.SortedBag.Invariant
import Aggregation.Proofs.SortedBag.RunTable

set_option autoImplicit false

namespace Aggregation.SortedBag

def occurrences (entries : List Entry) : List Datum :=
  entries.flatMap fun entry => List.replicate entry.count entry.value

theorem occurrences_length (entries : List Entry) :
    (occurrences entries).length = (entries.map (·.count)).sum := by
  simp [occurrences, List.length_flatMap]

theorem occurrences_at_most (entries : List Entry) (ascending : Ascending Entry.value entries) :
    (occurrences entries).Pairwise Datum.AtMost := by
  rw [occurrences, List.pairwise_flatMap]
  refine ⟨fun entry _ => List.pairwise_replicate.mpr (.inr (Datum.at_most_refl _)), ?_⟩
  refine ascending.imp fun {x y} below a aIn b bIn => ?_
  rw [List.eq_of_mem_replicate aIn, List.eq_of_mem_replicate bIn]
  exact Datum.at_most_of_below _ _ below

theorem occurrence_owned (entries : List Entry) (entry : Entry) (run position : Nat)
    (owns : RunTable.Owns (entries.map (·.count)) run position) (found : entries[run]? = some entry) :
    (occurrences entries)[position]? = some entry.value := by
  induction entries generalizing run position with
  | nil => cases found
  | cons head tail ih =>
      obtain ⟨low, high⟩ := owns
      rw [occurrences, List.flatMap_cons, ← occurrences]
      cases run with
      | zero =>
          have inside : position < head.count := by simpa using high
          rw [List.getElem?_cons_zero, Option.some.injEq] at found
          rw [List.getElem?_append_left (by rwa [List.length_replicate]),
            List.getElem?_replicate_of_lt inside, found]
      | succ run =>
          rw [List.map_cons, List.take_succ_cons, List.sum_cons] at low high
          rw [List.getElem?_append_right (by rw [List.length_replicate]; omega), List.length_replicate]
          exact ih run (position - head.count) ⟨by omega, by omega⟩ found

theorem freeze_collecting (bag : SortedBag) (collecting : bag.isFrozen = false) :
    bag.freeze = (.ok (), { bag with phase := .frozen (RunTable.ofLengths bag.counts) }) := by
  simp only [freeze, collecting, Bool.false_eq_true, if_false, counts]

theorem sound_phase (bag : SortedBag) (phase : Phase) (sound : bag.Sound) :
    Sound { bag with phase := phase } :=
  ⟨sound.ascending, sound.occurring, sound.size_eq⟩

theorem get_owned (bag : SortedBag) (entry : Entry) (run position : Nat)
    (frozen : bag.phase = .frozen (RunTable.ofLengths bag.counts))
    (owns : RunTable.Owns bag.counts run position) (found : bag.entries[run]? = some entry) :
    bag.get position = .ok entry.value := by
  simp only [get, table, frozen, Except.bind, RunTable.owner_of_owns _ _ _ owns, Option.bind_some, found]

theorem get_past (bag : SortedBag) (position : Nat) (sound : bag.Sound)
    (frozen : bag.phase = .frozen (RunTable.ofLengths bag.counts)) (past : bag.size ≤ position) :
    bag.get position = .error (.outOfRange position bag.size) := by
  have unowned := RunTable.owner_past bag.counts position (sound.size_eq ▸ past)
  simp only [get, table, frozen, Except.bind, unowned, Option.bind_none]

theorem get_inside (bag : SortedBag) (position : Nat) (value : Datum) (valid : bag.Valid)
    (found : bag.get position = .ok value) : position < bag.size := by
  by_contra past
  cases phase : bag.phase with
  | collecting => simp [get, table, phase, Except.bind] at found
  | frozen table =>
      rw [valid.laid table phase] at phase
      rw [get_past bag position valid.toSound phase (not_lt.mp past)] at found
      cases found

theorem freeze_size (bag : SortedBag) : bag.freeze.2.size = bag.size := by
  rw [freeze]
  split <;> rfl

theorem owner_exists (bag : SortedBag) (position : Nat) (sound : bag.Sound)
    (inside : position < bag.size) :
    ∃ run entry, bag.entries[run]? = some entry ∧ RunTable.Owns bag.counts run position := by
  obtain ⟨run, owns⟩ := RunTable.owns_exists bag.counts position (sound.size_eq ▸ inside)
  have bound := RunTable.owns_inside _ _ _ owns
  rw [counts, List.length_map, Array.length_toList] at bound
  exact ⟨run, bag.entries[run], Array.getElem?_eq_getElem bound, owns⟩

theorem get_occurrences (bag : SortedBag) (sound : bag.Sound)
    (frozen : bag.phase = .frozen (RunTable.ofLengths bag.counts)) :
    (List.range bag.size).map bag.get = (occurrences bag.entries.toList).map .ok := by
  refine List.ext_getElem? fun position => ?_
  rw [List.getElem?_map, List.getElem?_map]
  by_cases inside : position < bag.size
  · obtain ⟨run, entry, found, owns⟩ := owner_exists bag position sound inside
    rw [List.getElem?_range inside, Option.map_some, get_owned bag entry run position frozen owns found,
      occurrence_owned _ entry run position owns (by rwa [Array.getElem?_toList]), Option.map_some]
  · have length : (occurrences bag.entries.toList).length = bag.size := by
      rw [occurrences_length, sound.size_eq, counts]
    rw [List.getElem?_eq_none (by rw [List.length_range]; omega),
      List.getElem?_eq_none (by rw [length]; omega), Option.map_none, Option.map_none]

structure Lists (bag : SortedBag) (values : List Datum) : Prop where
  frozen : bag.isFrozen = true
  size : values.length = bag.size
  reads : ∀ position, (bag.get position).toOption = values[position]?

theorem lists_occurrences (bag : SortedBag) (valid : bag.Valid) (frozen : bag.isFrozen = true) :
    Lists bag (occurrences bag.entries.toList) where
  frozen := frozen
  size := by rw [occurrences_length, valid.size_eq, counts]
  reads position := by
    obtain ⟨table, phase⟩ := frozen_table bag frozen
    rw [valid.laid table phase] at phase
    by_cases inside : position < bag.size
    · have same := congrArg (·[position]?) (get_occurrences bag valid.toSound phase)
      simp only [List.getElem?_map, List.getElem?_range inside, Option.map_some] at same
      obtain ⟨value, found, read⟩ := Option.map_eq_some_iff.mp same.symm
      rw [← read, found]
      rfl
    · have length := occurrences_length bag.entries.toList
      rw [← counts, ← valid.size_eq] at length
      rw [get_past bag position valid.toSound phase (not_lt.mp inside), List.getElem?_eq_none (by omega)]
      rfl

theorem get_first (bag : SortedBag) (head : Entry) (tail : List Entry) (sound : bag.Sound)
    (frozen : bag.phase = .frozen (RunTable.ofLengths bag.counts))
    (split : bag.entries.toList = head :: tail) : bag.get 0 = .ok head.value := by
  have one := sound.occurring head (by simp [split])
  refine get_owned bag head 0 0 frozen ⟨Nat.zero_le _, ?_⟩ (by rw [← Array.getElem?_toList, split]; rfl)
  rw [counts, split, List.map_cons, List.take_succ_cons, List.take_zero, List.sum_singleton]
  exact one

theorem get_last (bag : SortedBag) (init : List Entry) (last : Entry) (sound : bag.Sound)
    (frozen : bag.phase = .frozen (RunTable.ofLengths bag.counts))
    (split : bag.entries.toList = init ++ [last]) : bag.get (bag.size - 1) = .ok last.value := by
  have one := sound.occurring last (by simp [split])
  have counts_eq : bag.counts = init.map (·.count) ++ [last.count] := by
    rw [counts, split, List.map_append, List.map_singleton]
  have size : bag.size = (init.map (·.count)).sum + last.count := by
    rw [sound.size_eq, counts_eq, List.sum_append, List.sum_singleton]
  refine get_owned bag last init.length _ frozen ⟨?_, ?_⟩
    (item_at_split bag.entries init [] last split)
  · rw [counts_eq, List.take_left' (List.length_map _)]
    omega
  · rw [counts_eq, List.take_of_length_le (by simp), List.sum_append, List.sum_singleton]
    omega

/-- Freezing changes nothing that was counted. Afterwards each position below the size reads the value of the one entry
whose run owns it, so that all of them read the occurrences in ascending order. -/
theorem freeze_lays_out (bag : SortedBag) (reachable : bag.Reachable)
    (collecting : bag.isFrozen = false) :
    bag.freeze.1 = .ok () ∧
      (bag.freeze.2.entries = bag.entries ∧ bag.freeze.2.size = bag.size ∧
        bag.freeze.2.countOf = bag.countOf ∧ bag.freeze.2.contains = bag.contains) ∧
      (∀ position, position < bag.size →
        ∃ run entry, bag.entries[run]? = some entry ∧ RunTable.Owns bag.counts run position ∧
          (∀ other, RunTable.Owns bag.counts other position → other = run) ∧
          bag.freeze.2.get position = .ok entry.value) ∧
      (List.range bag.size).map bag.freeze.2.get = (occurrences bag.entries.toList).map .ok ∧
      (occurrences bag.entries.toList).Pairwise Datum.AtMost ∧
      ∀ position, bag.size ≤ position →
        bag.freeze.2.get position = .error (.outOfRange position bag.size) := by
  have sound := (reachable_valid bag reachable).toSound
  have laidSound : (bag.freeze.2).Sound := by
    rw [freeze_collecting bag collecting]
    exact sound_phase bag _ sound
  rw [freeze_collecting bag collecting] at laidSound ⊢
  refine ⟨rfl, ⟨rfl, rfl, rfl, rfl⟩, fun position inside => ?_, get_occurrences _ laidSound rfl,
    occurrences_at_most _ sound.ascending, fun position past => get_past _ position laidSound rfl past⟩
  obtain ⟨run, entry, found, owns⟩ := owner_exists bag position sound inside
  exact ⟨run, entry, found, owns, fun other also => RunTable.owns_unique _ run other position owns also,
    get_owned _ entry run position rfl owns found⟩

theorem freeze_lays_out_three :
    Reachable (empty.after [.addAll [.integer 7, .null, .integer 7]]) ∧
      (empty.after [.addAll [.integer 7, .null, .integer 7]]).isFrozen = false ∧
      (List.range 3).map (empty.after [.addAll [.integer 7, .null, .integer 7]]).freeze.2.get =
        [.ok .null, .ok (.integer 7), .ok (.integer 7)] := by
  have collecting : (empty.after [.addAll [.integer 7, .null, .integer 7]]).isFrozen = false := by
    decide +kernel
  have laid := freeze_lays_out _ ⟨_, rfl⟩ collecting
  have size : (empty.after [.addAll [.integer 7, .null, .integer 7]]).size = 3 := by decide +kernel
  have values : occurrences (empty.after [.addAll [.integer 7, .null, .integer 7]]).entries.toList =
      [.null, .integer 7, .integer 7] := by decide +kernel
  rw [size, values] at laid
  exact ⟨⟨_, rfl⟩, collecting, laid.2.2.2.1⟩

end Aggregation.SortedBag
