import Mathlib
import Aggregation.Proofs.SortedBag.Refinement

set_option autoImplicit false

namespace Aggregation

namespace Tally

theorem recount_congr (change : Nat → Nat) (classes : List Entry) (value other : Datum)
    (alike : value.Alike other) : recount change classes value = recount change classes other := by
  refine List.map_congr_left fun entry _ => ?_
  simp only [Datum.alike_iff, (Datum.alike_iff value other).mp alike]

theorem present_congr (classes : List Entry) (value other : Datum) (alike : value.Alike other) :
    present classes value = present classes other := by
  simp only [present, Datum.alike_iff, (Datum.alike_iff value other).mp alike]

theorem take_congr (classes : List Entry) (value other : Datum) (alike : value.Alike other) :
    take classes value = take classes other := by
  rw [take, take, present_congr classes value other alike, recount_congr _ classes value other alike]

theorem take_eq (classes : List Entry) (value : Datum) (occurring : ∀ x ∈ classes, 1 ≤ x.count) :
    (take classes value).2 =
      (recount (· - 1) classes value).filter fun entry => decide (0 < entry.count) := by
  rw [take]
  cases found : present classes value with
  | true => rfl
  | false =>
      have absent : ∀ x ∈ classes, ¬x.value.Alike value := by simpa [present] using found
      rw [recount_none _ classes value absent, filter_occurring classes occurring]
      rfl

theorem take_occurring (classes : List Entry) (value : Datum)
    (occurring : ∀ x ∈ classes, 1 ≤ x.count) : ∀ x ∈ (take classes value).2, 1 ≤ x.count := by
  rw [take_eq classes value occurring]
  intro x inside
  exact of_decide_eq_true (List.mem_filter.mp inside).2

-- A class that one taking has emptied stays empty in the next, so it can be dropped later.
theorem take_twice (classes : List Entry) (value other : Datum)
    (occurring : ∀ x ∈ classes, 1 ≤ x.count) :
    (take (take classes value).2 other).2 =
      (recount (· - 1) (recount (· - 1) classes value) other).filter
        fun entry => decide (0 < entry.count) := by
  rw [take_eq _ other (take_occurring classes value occurring), take_eq classes value occurring]
  generalize recount (· - 1) classes value = lowered
  rw [recount, recount, List.filter_map, List.filter_map, List.filter_filter]
  congr 1
  refine List.filter_congr fun entry _ => ?_
  by_cases alike : entry.value.Alike other
  · simp [alike]
    omega
  · simp [alike]

theorem recount_comm (change : Nat → Nat) (classes : List Entry) (value other : Datum) :
    recount change (recount change classes value) other =
      recount change (recount change classes other) value := by
  rw [recount, recount, recount, recount, List.map_map, List.map_map]
  refine List.map_congr_left fun entry _ => ?_
  by_cases left : entry.value.Alike value <;> by_cases right : entry.value.Alike other <;>
    simp [left, right]

theorem present_after_take (classes : List Entry) (value other : Datum)
    (occurring : ∀ x ∈ classes, 1 ≤ x.count) (apart : ¬value.Alike other) :
    present (take classes value).2 other = present classes other := by
  rw [take_eq classes value occurring, present, present, recount, List.any_filter, List.any_map]
  refine Bool.eq_iff_iff.mpr ?_
  simp only [List.any_eq_true]
  refine exists_congr fun entry => and_congr_right fun inside => ?_
  have one := occurring entry inside
  by_cases alike : entry.value.Alike value
  · have other : ¬entry.value.Alike other := fun also =>
      apart (Datum.alike_trans _ _ _ (Datum.alike_symm _ _ alike) also)
    simp [alike, other]
  · simp [alike]
    omega

theorem take_flag (classes : List Entry) (value : Datum) :
    (take classes value).1 = present classes value := by
  rw [take]
  cases present classes value <;> rfl

theorem take_comm (classes : List Entry) (value other : Datum)
    (occurring : ∀ x ∈ classes, 1 ≤ x.count) :
    ((take classes value).1 && (take (take classes value).2 other).1) =
        ((take classes other).1 && (take (take classes other).2 value).1) ∧
      (take (take classes value).2 other).2 = (take (take classes other).2 value).2 := by
  refine ⟨?_, ?_⟩
  · by_cases alike : value.Alike other
    · rw [take_congr classes value other alike, take_congr _ value other alike]
    · have back : ¬other.Alike value := fun also => alike (Datum.alike_symm _ _ also)
      rw [take_flag, take_flag, take_flag, take_flag,
        present_after_take classes value other occurring alike,
        present_after_take classes other value occurring back, Bool.and_comm]
  · rw [take_twice classes value other occurring, take_twice classes other value occurring,
      recount_comm]

end Tally

namespace SortedBag

theorem sound_ext (left right : SortedBag) (leftSound : left.Sound) (rightSound : right.Sound)
    (entries : left.entries.toList = right.entries.toList) (phase : left.phase = right.phase) :
    left = right := by
  have size : left.size = right.size := by
    rw [leftSound.size_eq, rightSound.size_eq, counts, counts, entries]
  cases left
  cases right
  simp_all only [Array.toList_inj]

theorem put_taken (bag : SortedBag) (value : Datum) (sound : bag.Sound) :
    (bag.put value).2.take value = ((bag.put value).1, bag) := by
  have kept := sound_put bag value sound
  obtain ⟨flag, listed⟩ := Tally.take_listed (bag.put value).2 value kept
  have restored := sound_take (bag.put value).2 value kept
  have phase := (take_phase (bag.put value).2 value).trans (put_phase bag value)
  suffices same : Tally.take (bag.put value).2.entries.toList value =
      ((bag.put value).1, bag.entries.toList) by
    rw [same] at flag listed
    exact Prod.ext flag (sound_ext _ bag restored sound listed phase)
  have occurring := sound.occurring
  have outcome := put_outcome bag value sound
  generalize bag.put value = result at outcome
  cases outcome with
  | raised below item above split less alike greater =>
      rw [split] at occurring
      rw [List.toList_toArray, Tally.take_split below above { item with count := item.count + 1 } value
        less alike greater]
      exact congrArg (true, ·) ((Tally.filter_occurring _ occurring).trans split.symm)
  | inserted below above split less greater =>
      rw [split, List.forall_mem_append] at occurring
      rw [List.toList_toArray, Tally.take_split below above ⟨value, 1⟩ value less (Datum.alike_refl value)
        greater, List.filter_append, List.filter_cons_of_neg (by simp),
        Tally.filter_occurring below occurring.1, Tally.filter_occurring above occurring.2, split]
  | refused item inside apart =>
      have absent := refused_absent Entry.value value _ item sound.ascending inside apart
      rw [Tally.take, Tally.present_none _ value absent, if_neg Bool.false_ne_true]

theorem take_comm (bag : SortedBag) (value other : Datum) (sound : bag.Sound) :
    ((bag.take value).1 && ((bag.take value).2.take other).1) =
        ((bag.take other).1 && ((bag.take other).2.take value).1) ∧
      ((bag.take value).2.take other).2 = ((bag.take other).2.take value).2 := by
  have left := sound_take bag value sound
  have right := sound_take bag other sound
  obtain ⟨flagV, listedV⟩ := Tally.take_listed bag value sound
  obtain ⟨flagO, listedO⟩ := Tally.take_listed bag other sound
  obtain ⟨flagVO, listedVO⟩ := Tally.take_listed _ other left
  obtain ⟨flagOV, listedOV⟩ := Tally.take_listed _ value right
  rw [listedV] at flagVO listedVO
  rw [listedO] at flagOV listedOV
  obtain ⟨flags, same⟩ := Tally.take_comm bag.entries.toList value other sound.occurring
  refine ⟨by rw [flagV, flagO, flagVO, flagOV, flags], ?_⟩
  refine sound_ext _ _ (sound_take _ other left) (sound_take _ value right) ?_ ?_
  · rw [listedVO, listedOV, same]
  · rw [take_phase, take_phase, take_phase, take_phase]

theorem take_each_perm (values others : List Datum) (perm : values.Perm others) (bag : SortedBag)
    (sound : bag.Sound) : bag.withEach take values = bag.withEach take others := by
  induction perm generalizing bag with
  | nil => rfl
  | cons value perm ih =>
      simp only [withEach]
      rw [ih _ (sound_take bag value sound)]
  | swap value other rest =>
      obtain ⟨flags, same⟩ := take_comm bag value other sound
      simp only [withEach]
      rw [← Bool.and_assoc, ← Bool.and_assoc, flags, same]
  | trans first second ihFirst ihSecond => exact (ihFirst bag sound).trans (ihSecond bag sound)

theorem with_each_append (act : SortedBag → Datum → Bool × SortedBag) (bag : SortedBag)
    (first second : List Datum) :
    bag.withEach act (first ++ second) =
      ((bag.withEach act first).1 && ((bag.withEach act first).2.withEach act second).1,
        ((bag.withEach act first).2.withEach act second).2) := by
  induction first generalizing bag with
  | nil => simp [withEach]
  | cons value first ih => simp only [List.cons_append, withEach, ih, Bool.and_assoc]

-- The values are taken out from the last that was put in to the first, so each meets the bag that
-- its own putting in had left.
theorem put_each_taken (values : List Datum) (bag : SortedBag) (sound : bag.Sound) :
    (bag.withEach put values).2.withEach take values.reverse = ((bag.withEach put values).1, bag) := by
  induction values generalizing bag with
  | nil => rfl
  | cons value values ih =>
      rw [List.reverse_cons, with_each_append]
      simp only [withEach]
      rw [ih _ (sound_put bag value sound), put_taken bag value sound, Bool.and_true, Bool.and_comm]

/-- Adding values to a collecting bag and then removing the same values in any order answers twice
the same, and leaves the bag as it was before. -/
theorem add_all_undone (bag : SortedBag) (reachable : bag.Reachable)
    (collecting : bag.isFrozen = false) (values others : List Datum) (perm : others.Perm values) :
    ∃ all, (bag.addAll values).1 = .ok all ∧
      (bag.addAll values).2.removeAll others = (.ok all, bag) := by
  have sound := (reachable_valid bag reachable).toSound
  obtain ⟨filled, phase⟩ := each_sound put sound_put put_phase values bag sound
  have undone := take_each_perm _ _ (perm.trans (List.reverse_perm values).symm) _ filled
  rw [put_each_taken values bag sound] at undone
  have unfrozen : (bag.withEach put values).2.isFrozen = false := by
    rw [isFrozen, phase, ← isFrozen, collecting]
  refine ⟨(bag.withEach put values).1, ?_, ?_⟩
  · simp only [addAll, change, collecting, Bool.false_eq_true, if_false]
  · simp only [addAll, removeAll, change, collecting, unfrozen, undone, Bool.false_eq_true, if_false]

theorem add_all_undone_mixed :
    let bag := empty.after [.add (.double .one)]
    let values := [.integer 1, .text "a", .null, .integer 2]
    let others := [.text "a", .integer 2, .integer 1, .null]
    bag.Reachable ∧ bag.isFrozen = false ∧ others.Perm values ∧
      (bag.addAll values).1 = .ok false ∧ (bag.addAll values).2 ≠ bag ∧
      (bag.addAll values).2.removeAll others = (.ok false, bag) := by
  intro bag values others
  have collecting : bag.isFrozen = false := by decide +kernel
  have perm : others.Perm values := by decide +kernel
  obtain ⟨all, added, undone⟩ := add_all_undone bag ⟨_, rfl⟩ collecting values others perm
  have refused : (bag.addAll values).1.toOption = some false := by decide +kernel
  rw [added, Except.toOption, Option.some.injEq] at refused
  rw [refused] at added undone
  exact ⟨⟨_, rfl⟩, collecting, perm, added, by decide +kernel, undone⟩

end SortedBag

end Aggregation
