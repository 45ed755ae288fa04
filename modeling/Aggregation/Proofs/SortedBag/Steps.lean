import Mathlib
import Aggregation.SortedBag.Request
import Aggregation.Proofs.Datum.Ascending
import Aggregation.Proofs.Splice

set_option autoImplicit false

namespace Aggregation.SortedBag

def counts (bag : SortedBag) : List Nat :=
  bag.entries.toList.map (·.count)

structure Sound (bag : SortedBag) : Prop where
  ascending : Ascending Entry.value bag.entries.toList
  occurring : ∀ entry ∈ bag.entries.toList, 1 ≤ entry.count
  size_eq : bag.size = bag.counts.sum

structure Valid (bag : SortedBag) : Prop extends Sound bag where
  laid : ∀ table, bag.phase = .frozen table → table = RunTable.ofLengths bag.counts

theorem locate_located (bag : SortedBag) (value : Datum) (sound : bag.Sound) :
    Located Entry.value value bag.entries.toList (bag.locate value) :=
  search_located Entry.value value bag.entries sound.ascending

inductive Put (bag : SortedBag) (value : Datum) : Bool × SortedBag → Prop where
  | raised (below : List Entry) (item : Entry) (above : List Entry)
      (split : bag.entries.toList = below ++ item :: above)
      (less : ∀ x ∈ below, x.value.Below value) (alike : item.value.Alike value)
      (greater : ∀ x ∈ above, value.Below x.value) :
      Put bag value (true, ⟨bag.size + 1,
        (below ++ { item with count := item.count + 1 } :: above).toArray, bag.phase⟩)
  | inserted (below above : List Entry) (split : bag.entries.toList = below ++ above)
      (less : ∀ x ∈ below, x.value.Below value) (greater : ∀ x ∈ above, value.Below x.value) :
      Put bag value (true, ⟨bag.size + 1, (below ++ ⟨value, 1⟩ :: above).toArray, bag.phase⟩)
  | refused (item : Entry) (inside : item ∈ bag.entries.toList)
      (apart : ¬Datum.Comparable item.value value) : Put bag value (false, bag)

theorem put_outcome (bag : SortedBag) (value : Datum) (sound : bag.Sound) :
    Put bag value (bag.put value) := by
  have located := locate_located bag value sound
  rw [put]
  generalize bag.locate value = slot at located
  cases located with
  | hit below item above split less alike greater =>
      simp only [modify_at_split bag.entries below above item _ split]
      exact .raised below item above split less alike greater
  | gap below above split less greater =>
      simp only [insert_at_split bag.entries below above _ split]
      exact .inserted below above split less greater
  | refused item inside apart failure => exact .refused item inside apart

theorem sound_put (bag : SortedBag) (value : Datum) (sound : bag.Sound) : (bag.put value).2.Sound := by
  have outcome := put_outcome bag value sound
  obtain ⟨ascending, occurring, size⟩ := sound
  generalize bag.put value = result at outcome
  cases outcome with
  | raised below item above split less alike greater =>
      simp only [counts, split, List.forall_mem_append, List.forall_mem_cons] at ascending occurring size
      refine ⟨?_, ?_, ?_⟩
      · simpa [Ascending, List.pairwise_append] using ascending
      · simp only [List.forall_mem_append, List.forall_mem_cons]
        exact ⟨occurring.1, Nat.le_add_left _ _, occurring.2.2⟩
      · simp only [counts, size, List.map_append, List.map_cons, List.sum_append, List.sum_cons]
        omega
  | inserted below above split less greater =>
      simp only [counts, split, List.forall_mem_append] at ascending occurring size
      refine ⟨ascending_insert _ below above ⟨value, 1⟩ ascending less greater, ?_, ?_⟩
      · simp only [List.forall_mem_append, List.forall_mem_cons]
        exact ⟨occurring.1, Nat.le_refl _, occurring.2⟩
      · simp only [counts, size, List.map_append, List.map_cons, List.sum_append, List.sum_cons]
        omega
  | refused item inside apart => exact ⟨ascending, occurring, size⟩

inductive Take (bag : SortedBag) (value : Datum) : Bool × SortedBag → Prop where
  | lowered (below : List Entry) (item : Entry) (above : List Entry)
      (split : bag.entries.toList = below ++ item :: above)
      (less : ∀ x ∈ below, x.value.Below value) (alike : item.value.Alike value)
      (greater : ∀ x ∈ above, value.Below x.value) (more : 1 < item.count) :
      Take bag value (true, ⟨bag.size - 1,
        (below ++ { item with count := item.count - 1 } :: above).toArray, bag.phase⟩)
  | dropped (below : List Entry) (item : Entry) (above : List Entry)
      (split : bag.entries.toList = below ++ item :: above)
      (less : ∀ x ∈ below, x.value.Below value) (alike : item.value.Alike value)
      (greater : ∀ x ∈ above, value.Below x.value) (last : item.count = 1) :
      Take bag value (true, ⟨bag.size - 1, (below ++ above).toArray, bag.phase⟩)
  | missed (absent : ∀ x ∈ bag.entries.toList, ¬x.value.Alike value) : Take bag value (false, bag)

theorem take_outcome (bag : SortedBag) (value : Datum) (sound : bag.Sound) :
    Take bag value (bag.take value) := by
  have located := locate_located bag value sound
  rw [take]
  generalize bag.locate value = slot at located
  cases located with
  | hit below item above split less alike greater =>
      have found := item_at_split bag.entries below above item split
      by_cases more : 1 < item.count
      · simp only [found, Option.any_some, more, decide_true, if_true,
          modify_at_split bag.entries below above item _ split]
        exact .lowered below item above split less alike greater more
      · have one : 1 ≤ item.count := sound.occurring item (by simp [split])
        simp only [found, Option.any_some, more, decide_false, Bool.false_eq_true, if_false,
          erase_at_split bag.entries below above item split]
        exact .dropped below item above split less alike greater (by omega)
  | gap below above split less greater =>
      exact .missed (gap_absent _ value _ below above split less greater)
  | refused item inside apart failure =>
      exact .missed (refused_absent _ value _ item sound.ascending inside apart)

theorem sound_take (bag : SortedBag) (value : Datum) (sound : bag.Sound) : (bag.take value).2.Sound := by
  have outcome := take_outcome bag value sound
  obtain ⟨ascending, occurring, size⟩ := sound
  generalize bag.take value = result at outcome
  cases outcome with
  | lowered below item above split less alike greater more =>
      simp only [counts, split, List.forall_mem_append, List.forall_mem_cons] at ascending occurring size
      refine ⟨?_, ?_, ?_⟩
      · simpa [Ascending, List.pairwise_append] using ascending
      · simp only [List.forall_mem_append, List.forall_mem_cons]
        exact ⟨occurring.1, Nat.le_sub_of_add_le more, occurring.2.2⟩
      · simp only [counts, size, List.map_append, List.map_cons, List.sum_append, List.sum_cons]
        omega
  | dropped below item above split less alike greater last =>
      simp only [counts, split, List.forall_mem_append, List.forall_mem_cons] at ascending occurring size
      refine ⟨?_, ?_, ?_⟩
      · exact ascending.sublist ((List.sublist_cons_self item above).append_left below)
      · simp only [List.forall_mem_append]
        exact ⟨occurring.1, occurring.2.2⟩
      · simp only [counts, size, last, List.map_append, List.map_cons, List.sum_append, List.sum_cons]
        omega
  | missed absent => exact ⟨ascending, occurring, size⟩

end Aggregation.SortedBag
