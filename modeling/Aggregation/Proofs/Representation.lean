import Mathlib
import Aggregation.Proofs.Accumulator.Distinct
import Aggregation.Proofs.SortedBag.Invariant
import Aggregation.Proofs.SortedBag.RunTable

set_option autoImplicit false

namespace Aggregation

namespace SortedBag

structure WellFormed (bag : SortedBag) : Prop where
  ascending : Ascending Entry.value bag.entries.toList
  nullFirst : ∀ (index : Nat) (entry : Entry), bag.entries[index]? = some entry →
    entry.value = .null → index = 0
  comparable : ∀ x ∈ bag.entries.toList, ∀ y ∈ bag.entries.toList, Datum.Comparable x.value y.value
  family : ∃ family, ∀ entry ∈ bag.entries.toList,
    entry.value = .null ∨ entry.value.family? = some family
  occurring : ∀ entry ∈ bag.entries.toList, 1 ≤ entry.count
  size_eq : bag.size = bag.counts.sum
  ends : ∀ table, bag.phase = .frozen table → table.ends.toList =
    (List.range bag.entries.size).map fun run => (bag.counts.take (run + 1)).sum
  last : ∀ table, bag.phase = .frozen table → bag.entries ≠ #[] → table.ends.back? = some bag.size
  mode : ∀ table, bag.phase = .frozen table → (table.mode = none ↔ bag.entries = #[])

theorem counts_length (bag : SortedBag) : bag.counts.length = bag.entries.size := by
  rw [counts, List.length_map, Array.length_toList]

theorem counts_nil_iff (bag : SortedBag) : bag.counts = [] ↔ bag.entries = #[] := by
  rw [← List.length_eq_zero_iff, counts_length, Array.size_eq_zero_iff]

theorem counts_occurring (bag : SortedBag) (sound : bag.Sound) : ∀ count ∈ bag.counts, 1 ≤ count := by
  intro count inside
  obtain ⟨entry, entryIn, rfl⟩ := List.mem_map.mp inside
  exact sound.occurring entry entryIn

theorem valid_well_formed (bag : SortedBag) (valid : bag.Valid) : bag.WellFormed where
  ascending := valid.ascending
  nullFirst index entry found := by
    rw [← Array.getElem?_toList] at found
    exact ascending_null_first Entry.value _ valid.ascending index entry found
  comparable x xIn y yIn := ascending_comparable Entry.value _ valid.ascending x y xIn yIn
  family := ascending_family Entry.value _ valid.ascending
  occurring := valid.occurring
  size_eq := valid.size_eq
  ends table frozen := by
    rw [valid.laid table frozen, RunTable.ends_eq, counts_length]
  last table frozen filled := by
    rw [valid.laid table frozen, RunTable.last_end _ (mt (counts_nil_iff bag).mp filled), valid.size_eq]
  mode table frozen := by
    rw [valid.laid table frozen, RunTable.mode_none_iff _ (counts_occurring bag valid.toSound),
      counts_nil_iff]

end SortedBag

namespace Accumulator

structure HeldInOrder (acc : Accumulator) : Prop where
  ascending : Ascending id acc.held.toList
  present : ∀ row ∈ acc.held.toList, row ≠ .null
  family : ∃ family, ∀ row ∈ acc.held.toList, row.family? = some family

theorem holds_in_order (acc : Accumulator) (given : List Datum) (holds : Holds acc given) :
    acc.HeldInOrder where
  ascending := holds.kept.ascending
  present := holds_present acc given holds
  family := by
    obtain ⟨family, named⟩ := ascending_family id _ holds.kept.ascending
    exact ⟨family, fun row inside =>
      (named row inside).resolve_left (holds_present acc given holds row inside)⟩

end Accumulator

/-- Every run of requests, whatever they answered, leaves a well-formed bag, and every run of steps an
accumulator whose held rows are in order, without NULL and of one family. -/
theorem reachable_well_formed [PowerFunction] :
    (∀ requests, (SortedBag.empty.after requests).WellFormed) ∧
      ∀ aggregate dataType steps,
        ((Accumulator.empty aggregate dataType).after steps).HeldInOrder := by
  refine ⟨fun requests => ?_, fun aggregate dataType steps => ?_⟩
  · have valid := SortedBag.after_valid SortedBag.empty requests SortedBag.empty_valid
    exact SortedBag.valid_well_formed _ valid
  · have holds := Accumulator.run_holds _ _ steps (Accumulator.empty_holds aggregate dataType)
    exact Accumulator.holds_in_order _ _ holds

end Aggregation
