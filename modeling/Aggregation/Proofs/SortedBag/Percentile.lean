import Mathlib
import Aggregation.Proofs.Binary64.Integers
import Aggregation.Proofs.Binary64.Rounds
import Aggregation.Proofs.SortedBag.Bounds

set_option autoImplicit false

namespace Aggregation.SortedBag

def reaching (size : Nat) (q : ℚ) : Set Nat :=
  { position | q ≤ (position + 1 : Nat) / size }

section Exact

variable (size : Nat) (q : ℚ) (filled : 0 < size)

include filled

theorem reaching_iff (position : Nat) : position ∈ reaching size q ↔ q * size ≤ (position + 1 : Nat) := by
  rw [reaching, Set.mem_ofPred_eq, le_div_iff₀ (Nat.cast_pos.mpr filled)]

theorem reaching_iff_le (position : Nat) : position ∈ reaching size q ↔ ⌈q * size⌉₊ - 1 ≤ position := by
  rw [reaching_iff size q filled, Nat.sub_le_iff_le_add, Nat.ceil_le]

theorem reaching_least : IsLeast (reaching size q) (⌈q * size⌉₊ - 1) :=
  ⟨(reaching_iff_le size q filled _).mpr (le_refl _), fun _ inside => (reaching_iff_le size q filled _).mp inside⟩

theorem least_zero : IsLeast (reaching size 0) 0 := by
  simpa using reaching_least size 0 filled

theorem least_one : IsLeast (reaching size 1) (size - 1) := by
  simpa using reaching_least size 1 filled

theorem least_half : IsLeast (reaching size (1 / 2)) ((size - 1) / 2) := by
  have half (position : Nat) : position ∈ reaching size (1 / 2) ↔ size ≤ 2 * (position + 1) := by
    rw [reaching_iff size _ filled, one_div, inv_mul_le_iff₀ two_pos]
    exact_mod_cast Iff.rfl
  refine ⟨(half _).mpr (by omega), fun position inside => ?_⟩
  have le := (half position).mp inside
  omega

end Exact

structure FractionOf (size : Nat) (fraction : Binary64) (q : ℚ) : Prop where
  stands : fraction.standing = .ofRat q
  zero : 0 ≤ q
  one : q ≤ 1
  filled : 0 < size
  few : size ≤ 2 ^ 53

section Position

variable (size : Nat) (fraction : Binary64) (q : ℚ) (given : FractionOf size fraction q)

include given

theorem least_inside (first : Nat) (least : IsLeast (reaching size q) first) : first < size := by
  have filled := given.filled
  have last : size - 1 ∈ reaching size q := by
    rw [reaching_iff size q filled, Nat.sub_add_cancel filled]
    exact mul_le_of_le_one_left (Nat.cast_nonneg _) given.one
  have le := least.2 last
  omega

theorem product_rounds : Binary64.Rounds (q * size) (fraction * .ofNat size) :=
  Binary64.mul_rounds _ _ _ _ given.stands (Binary64.of_nat_standing size given.few)

-- The whole numbers up to the size are doubles, so the rounded product is on the same side of them.
theorem product_le (n : Nat) (le : q * size ≤ n) : (fraction * .ofNat size).standing ≤ .ofRat n := by
  have small : q * size ≤ (min n size : Nat) := by
    rw [Nat.cast_min]
    exact le_min le (mul_le_of_le_one_left (Nat.cast_nonneg _) given.one)
  have standing := Binary64.of_nat_standing (min n size) ((min_le_right _ _).trans given.few)
  calc (fraction * .ofNat size).standing ≤ (Binary64.ofNat (min n size)).standing :=
        Binary64.rounds_le _ _ _ _ (product_rounds size fraction q given) standing small
    _ = .ofRat (min n size : Nat) := standing
    _ ≤ .ofRat n := Standing.of_rat_strict_mono.monotone (Nat.cast_le.mpr (min_le_left _ _))

theorem le_product (n : Nat) (le : n ≤ q * size) : .ofRat n ≤ (fraction * .ofNat size).standing := by
  have small : n ≤ size := Nat.cast_le.mp (le.trans (mul_le_of_le_one_left (Nat.cast_nonneg _) given.one))
  have standing := Binary64.of_nat_standing n (small.trans given.few)
  exact standing ▸ Binary64.le_rounds _ _ _ _ (product_rounds size fraction q given) standing le

theorem position_le_iff (position : Nat) : percentilePosition size fraction ≤ position ↔
    (fraction * .ofNat size).standing ≤ .ofRat (position + 1 : Nat) := by
  have few := given.few
  by_cases inside : position + 1 < size
  · have number := Binary64.rounds_number _ _ (product_rounds size fraction q given)
    have wide : 2 ^ 53 < Binary64.greatestCount := by decide
    rw [← Binary64.ceiling_le_iff _ _ number (by omega), percentilePosition]
    omega
  · -- No product passes the size.
    have last : q * size ≤ (position + 1 : Nat) :=
      (mul_le_of_le_one_left (Nat.cast_nonneg _) given.one).trans (Nat.cast_le.mpr (not_lt.mp inside))
    refine iff_of_true ?_ (product_le size fraction q given _ last)
    rw [percentilePosition]
    omega

variable (first : Nat) (least : IsLeast (reaching size q) first)

include least

theorem position_le_least : percentilePosition size fraction ≤ first := by
  rw [position_le_iff size fraction q given]
  exact product_le size fraction q given _ ((reaching_iff size q given.filled first).mp least.1)

theorem least_le_position : first ≤ percentilePosition size fraction + 1 := by
  by_contra past
  have short : percentilePosition size fraction + 1 ∉ reaching size q := fun inside => past (least.2 inside)
  rw [reaching_iff size q given.filled, not_le] at short
  have low := le_product size fraction q given _ short.le
  have high := (position_le_iff size fraction q given _).mp (le_refl _)
  have le := Nat.cast_le.mp (Standing.of_rat_strict_mono.le_iff_le.mp (low.trans high))
  omega

theorem position_exact (product : Binary64) (exact_product : product.standing = .ofRat (q * size)) :
    percentilePosition size fraction = first := by
  apply le_antisymm (position_le_least size fraction q given first least)
  have high := (position_le_iff size fraction q given _).mp (le_refl _)
  rw [Binary64.rounds_exact _ _ product (product_rounds size fraction q given) exact_product,
    Standing.of_rat_strict_mono.le_iff_le, ← reaching_iff size q given.filled] at high
  exact least.2 high

end Position

theorem fraction_within (size : Nat) (fraction : Binary64) (q : ℚ) (given : FractionOf size fraction q) :
    (Binary64.zero.atMost fraction && fraction.atMost .one) = true := by
  have number : fraction ≠ .nan := by
    rintro rfl
    cases given.stands
  have low := Binary64.is_zero_standing .zero rfl
  have high := Binary64.of_nat_standing 1 (by decide)
  rw [Int.cast_zero] at low
  rw [Nat.cast_one] at high
  rw [Bool.and_eq_true, Binary64.at_most_iff _ _ number, Binary64.at_most_iff _ _ (by decide), low,
    Binary64.one, high, given.stands]
  exact ⟨Standing.of_rat_strict_mono.monotone given.zero, Standing.of_rat_strict_mono.monotone given.one⟩

theorem percentile_reads (bag : SortedBag) (fraction : Binary64) (q : ℚ) (frozen : bag.isFrozen = true)
    (given : FractionOf bag.size fraction q) :
    bag.percentile fraction = bag.get (percentilePosition bag.size fraction) :=
  percentile_at bag fraction frozen given.filled (fraction_within bag.size fraction q given)

theorem median_reads (bag : SortedBag) (frozen : bag.isFrozen = true) (filled : 0 < bag.size) :
    bag.median = bag.get ((bag.size - 1) / 2) := by
  obtain ⟨table, phase⟩ := frozen_table bag frozen
  simp only [median, SortedBag.table, phase, Except.bind, if_neg filled.ne']

/-- A percentile is read at the first position whose share of the occurrences is at least the fraction, or at the one
before it, and at the first itself wherever the exact product of fraction and size is a double. -/
theorem percentile_near_exact (bag : SortedBag) (reachable : bag.Reachable) (frozen : bag.isFrozen = true)
    (fraction : Binary64) (q : ℚ) (given : FractionOf bag.size fraction q) :
    ∃ first, IsLeast (reaching bag.size q) first ∧ ∃ value, bag.percentile fraction = .ok value ∧
      (bag.get first = .ok value ∨ bag.get (first - 1) = .ok value) ∧
      ((∃ product : Binary64, product.standing = .ofRat (q * bag.size)) → bag.get first = .ok value) ∧
      (q = 0 → bag.get 0 = .ok value) ∧ (q = 1 → bag.get (bag.size - 1) = .ok value) ∧
      (q = 1 / 2 → bag.median = .ok value) := by
  have valid := reachable_valid bag reachable
  have least := reaching_least bag.size q given.filled
  generalize ⌈q * bag.size⌉₊ - 1 = first at least
  have inside := least_inside bag.size fraction q given first least
  have above := position_le_least bag.size fraction q given first least
  have below := least_le_position bag.size fraction q given first least
  obtain ⟨value, read⟩ := get_answers bag (percentilePosition bag.size fraction) valid frozen (by omega)
  have read_exact (product : Binary64) (same : product.standing = .ofRat (q * bag.size)) :
      bag.get first = .ok value := by
    rwa [← position_exact bag.size fraction q given first least product same]
  refine ⟨first, least, value, ?_, ?_, ?_, ?_, ?_, ?_⟩
  · rw [percentile_reads bag fraction q frozen given, read]
  · rcases Nat.lt_or_eq_of_le above with less | same
    · right
      rwa [show first - 1 = percentilePosition bag.size fraction by omega]
    · left
      rwa [← same]
  · rintro ⟨product, same⟩
    exact read_exact product same
  · rintro rfl
    rw [(least_zero bag.size given.filled).unique least]
    exact read_exact fraction (by rw [given.stands, zero_mul])
  · rintro rfl
    rw [(least_one bag.size given.filled).unique least]
    exact read_exact (.ofNat bag.size) (by rw [Binary64.of_nat_standing bag.size given.few, one_mul])
  · rintro rfl
    obtain ⟨product, half⟩ := Binary64.standing_of_scaled bag.size 1 given.few (by decide)
    rw [median_reads bag frozen given.filled, (least_half bag.size given.filled).unique least]
    exact read_exact product (by rw [half, pow_one, div_eq_inv_mul, one_div])

-- The double next above a third of three values: its product with three is rounded to one, so what is read
-- stands one before the first position that reaches it.
theorem percentile_near_exact_third :
    let bag := empty.after [.addAll [.integer 1, .integer 2, .integer 3], .freeze]
    let fraction := Binary64.ofBits 0x3fd5555555555556
    bag.size = 3 ∧ fraction.standing = .ofRat (6004799503160662 / 2 ^ 54) ∧
      bag.percentile fraction = .ok (.integer 1) ∧
      ∃ first, IsLeast (reaching bag.size (6004799503160662 / 2 ^ 54)) first ∧
        (bag.get first = .ok (.integer 1) ∨ bag.get (first - 1) = .ok (.integer 1)) := by
  intro bag fraction
  have size : bag.size = 3 := by decide +kernel
  have frozen : bag.isFrozen = true := by decide +kernel
  have read : bag.percentile fraction = .ok (.integer 1) := by decide +kernel
  have stands : fraction.standing = .ofRat (6004799503160662 / 2 ^ 54) := by
    have same : fraction = .finite false ⟨0x3fd5555555555556, by decide⟩ := by decide +kernel
    rw [same, Binary64.standing, Binary64.value]
    norm_num
  obtain ⟨first, least, value, found, near, _⟩ := percentile_near_exact bag ⟨_, rfl⟩ frozen fraction _
    ⟨stands, by norm_num, by norm_num, by omega, by omega⟩
  rw [read, Except.ok.injEq] at found
  subst found
  exact ⟨size, stands, read, first, least, near⟩

end Aggregation.SortedBag
