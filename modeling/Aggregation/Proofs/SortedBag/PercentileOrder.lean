import Mathlib
import Aggregation.Proofs.Binary64.Integers
import Aggregation.Proofs.Binary64.Scaling
import Aggregation.Proofs.SortedBag.Bounds

set_option autoImplicit false

namespace Aggregation

theorem Binary64.of_nat_not_negative (n : Nat) : zero.atMost (ofNat n) = true := by
  have start : zero = ofIndex false 0 := by decide +kernel
  have bound : indexOfRatio n 1 ≤ finiteCount := index_of_units_bound _ 1 Nat.one_pos
  rw [start, ofNat, ofRatio, at_most_of_index 0 _ (Nat.zero_le _) bound]
  exact Nat.zero_le _

namespace SortedBag

theorem position_mono (size : Nat) (low high : Binary64) (positive : Binary64.zero.atMost low = true)
    (le : low.atMost high = true) : percentilePosition size low ≤ percentilePosition size high := by
  have counts := Binary64.ceiling_mul_mono low high _ positive le (Binary64.of_nat_not_negative size)
  exact min_le_min_right _ (Nat.sub_le_sub_right counts 1)

theorem position_inside (size : Nat) (fraction : Binary64) (filled : 0 < size) :
    percentilePosition size fraction < size := by
  rw [percentilePosition]
  omega

section Frozen

variable (bag : SortedBag) (valid : bag.Valid) (frozen : bag.isFrozen = true)

include valid frozen

theorem get_at_most (low high : Nat) (lesser greater : Datum) (le : low ≤ high)
    (lowest : bag.get low = .ok lesser) (highest : bag.get high = .ok greater) :
    lesser.AtMost greater := by
  have reads := (lists_occurrences bag valid frozen).reads
  have lowRead := reads low
  have highRead := reads high
  rw [lowest] at lowRead
  rw [highest] at highRead
  obtain ⟨lowIn, rfl⟩ := List.getElem?_eq_some_iff.mp lowRead.symm
  obtain ⟨highIn, rfl⟩ := List.getElem?_eq_some_iff.mp highRead.symm
  rcases Nat.lt_or_eq_of_le le with less | rfl
  · exact List.pairwise_iff_getElem.mp (occurrences_at_most _ valid.ascending) low high lowIn highIn less
  · exact Datum.at_most_refl _

end Frozen

/-- Percentiles of a frozen bag that is not empty keep the order of their fractions: both are answered, and
the values compare as less or equal. -/
theorem percentile_monotone (bag : SortedBag) (reachable : bag.Reachable) (frozen : bag.isFrozen = true)
    (filled : 0 < bag.size) (low high : Binary64) (positive : Binary64.zero.atMost low = true)
    (le : low.atMost high = true) (within : high.atMost .one = true) :
    ∃ lesser greater, bag.percentile low = .ok lesser ∧ bag.percentile high = .ok greater ∧
      lesser.AtMost greater := by
  have valid := reachable_valid bag reachable
  have lowWithin := Binary64.at_most_trans low high .one le within
  have highPositive := Binary64.at_most_trans .zero low high positive le
  obtain ⟨lesser, lowest⟩ := get_answers bag _ valid frozen (position_inside bag.size low filled)
  obtain ⟨greater, highest⟩ := get_answers bag _ valid frozen (position_inside bag.size high filled)
  refine ⟨lesser, greater, ?_, ?_, ?_⟩
  · rw [percentile_at bag low frozen filled (by rw [positive, lowWithin, Bool.and_self]), lowest]
  · rw [percentile_at bag high frozen filled (by rw [highPositive, within, Bool.and_self]), highest]
  · exact get_at_most bag valid frozen _ _ lesser greater (position_mono bag.size low high positive le)
      lowest highest

theorem percentile_monotone_mixed :
    let bag := empty.after [.addAll [.double .one, .null, .integer 2, .integer (-4)], .freeze]
    let low := Binary64.ofBits 0x3fd5555555555556
    let high := Binary64.ofBits 0x3fe0000000000001
    bag.Reachable ∧ bag.isFrozen = true ∧ 0 < bag.size ∧ Binary64.zero.atMost low = true ∧
      low.atMost high = true ∧ high.atMost .one = true ∧
      bag.percentile low = .ok (.integer (-4)) ∧ bag.percentile high = .ok (.double .one) ∧
      (Datum.integer (-4)).AtMost (.double .one) := by
  intro bag low high
  have frozen : bag.isFrozen = true := by decide +kernel
  have filled : 0 < bag.size := by decide +kernel
  have positive : Binary64.zero.atMost low = true := by decide +kernel
  have le : low.atMost high = true := by decide +kernel
  have within : high.atMost .one = true := by decide +kernel
  have second : bag.percentile low = .ok (.integer (-4)) := by decide +kernel
  have third : bag.percentile high = .ok (.double .one) := by decide +kernel
  obtain ⟨lesser, greater, lowest, highest, ascends⟩ :=
    percentile_monotone bag ⟨_, rfl⟩ frozen filled low high positive le within
  obtain rfl := Except.ok.inj (second.symm.trans lowest)
  obtain rfl := Except.ok.inj (third.symm.trans highest)
  exact ⟨⟨_, rfl⟩, frozen, filled, positive, le, within, second, third, ascends⟩

end SortedBag

end Aggregation
