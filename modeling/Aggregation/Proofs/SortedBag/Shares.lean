import Mathlib
import Aggregation.Proofs.SortedBag.Percentile

set_option autoImplicit false

namespace Aggregation

namespace Binary64

-- Fractions of one with at most 2^53 in the denominator lie no closer to each other than the doubles below one.
theorem standing_between (n size : Nat) (within : n ≤ size) (filled : 0 < size) (few : size ≤ 2 ^ 53) :
    ∃ x : Binary64, .ofRat (n / size) ≤ x.standing ∧ x.standing ≤ .ofRat ((n + 1 : Nat) / size) := by
  have positive : (0 : ℚ) < size := Nat.cast_pos.mpr filled
  have scale : (0 : ℚ) < 2 ^ 53 := by positivity
  have small : (n : ℚ) / size * 2 ^ 53 ≤ (2 ^ 53 : Nat) := by
    rw [Nat.cast_pow, Nat.cast_ofNat]
    exact mul_le_of_le_one_left scale.le ((div_le_one positive).mpr (Nat.cast_le.mpr within))
  obtain ⟨x, standing⟩ := standing_of_scaled ⌈(n : ℚ) / size * 2 ^ 53⌉₊ 53 (Nat.ceil_le.mpr small) (by decide)
  refine ⟨x, ?_, ?_⟩
  · rw [standing]
    exact Standing.of_rat_strict_mono.monotone ((le_div_iff₀ scale).mpr (Nat.le_ceil _))
  · rw [standing]
    have above := (Nat.ceil_lt_add_one (mul_nonneg (div_nonneg n.cast_nonneg positive.le) scale.le)).le
    have spaced : (1 : ℚ) ≤ 2 ^ 53 / size := (one_le_div positive).mpr (by exact_mod_cast few)
    refine Standing.of_rat_strict_mono.monotone ((div_le_iff₀ scale).mpr ?_)
    calc (⌈(n : ℚ) / size * 2 ^ 53⌉₊ : ℚ) ≤ n / size * 2 ^ 53 + 1 := above
      _ ≤ n / size * 2 ^ 53 + 2 ^ 53 / size := by gcongr
      _ = (n + 1 : Nat) / size * 2 ^ 53 := by push_cast; ring

end Binary64

namespace SortedBag

def share (size position : Nat) : Binary64 := .ofNat (position + 1) / .ofNat size

def sharing (size : Nat) (fraction : Binary64) : Set Nat :=
  { position | fraction.atMost (share size position) = true }

section Shares

variable (size : Nat) (fraction : Binary64) (q : ℚ) (given : FractionOf size fraction q)

include given

section Position

variable (position : Nat) (inside : position < size)

include inside

theorem share_rounds : Binary64.Rounds ((position + 1 : Nat) / size) (share size position) := by
  have few := given.few
  exact Binary64.div_rounds _ _ _ _ (Binary64.of_nat_standing (position + 1) (by omega))
    (Binary64.of_nat_standing size few) (Nat.cast_ne_zero.mpr given.filled.ne')

theorem sharing_iff : position ∈ sharing size fraction ↔ fraction.standing ≤ (share size position).standing :=
  Binary64.at_most_iff _ _ (Binary64.rounds_number _ _ (share_rounds size fraction q given position inside))

theorem sharing_of_reaching (reaches : position ∈ reaching size q) : position ∈ sharing size fraction := by
  rw [sharing_iff size fraction q given position inside]
  exact Binary64.le_rounds _ _ _ _ (share_rounds size fraction q given position inside) given.stands reaches

theorem reaching_of_sharing (shares : position ∈ sharing size fraction) :
    position + 1 ∈ reaching size q := by
  obtain ⟨x, low, high⟩ := Binary64.standing_between (position + 1) size inside given.filled given.few
  rw [sharing_iff size fraction q given position inside] at shares
  have le := shares.trans ((share_rounds size fraction q given position inside).above x low)
  rw [given.stands] at le
  exact Standing.of_rat_strict_mono.le_iff_le.mp (le.trans high)

theorem share_rounded_up (shares : position ∈ sharing size fraction) (short : position ∉ reaching size q) :
    (share size position).standing = fraction.standing := by
  rw [sharing_iff size fraction q given position inside] at shares
  have rounds := share_rounds size fraction q given position inside
  have le := Binary64.rounds_le _ _ _ _ rounds given.stands (not_le.mp short).le
  exact le_antisymm le shares

end Position

theorem sharing_least_exists (exact_first : Nat) (exact_least : IsLeast (reaching size q) exact_first) :
    ∃ first, IsLeast (sharing size fraction) first ∧ first ≤ exact_first ∧ exact_first ≤ first + 1 := by
  have inside := least_inside size fraction q given exact_first exact_least
  have shares := sharing_of_reaching size fraction q given exact_first inside exact_least.1
  have found := Nat.sInf_mem ⟨exact_first, shares⟩
  have le : sInf (sharing size fraction) ≤ exact_first := Nat.sInf_le shares
  refine ⟨sInf (sharing size fraction), ⟨found, fun _ => Nat.sInf_le⟩, le, exact_least.2 ?_⟩
  exact reaching_of_sharing size fraction q given _ (le.trans_lt inside) found

theorem fraction_le_product : fraction.standing ≤ (fraction * .ofNat size).standing :=
  Binary64.le_rounds _ _ _ _ (product_rounds size fraction q given) given.stands
    (le_mul_of_one_le_right given.zero (Nat.one_le_cast.mpr given.filled))

theorem position_before_iff (first exact_first : Nat) (exact_least : IsLeast (reaching size q) exact_first)
    (le : first ≤ exact_first) : percentilePosition size fraction < first ↔
      (fraction * .ofNat size).standing = .ofRat first ∧ first < q * size := by
  have below := least_le_position size fraction q given exact_first exact_least
  have position_le (position : Nat) := position_le_iff size fraction q given position
  constructor
  · intro before
    have next : percentilePosition size fraction + 1 = first := by omega
    have short : percentilePosition size fraction ∉ reaching size q := fun inside =>
      absurd (exact_least.2 inside) (by omega)
    rw [reaching_iff size q given.filled, next, not_le] at short
    have high := (position_le _).mp (le_refl _)
    rw [next] at high
    exact ⟨le_antisymm high (le_product size fraction q given first short.le), short⟩
  · rintro ⟨same, short⟩
    cases first with
    | zero =>
        have bound := fraction_le_product size fraction q given
        rw [same, given.stands, Standing.of_rat_strict_mono.le_iff_le, Nat.cast_zero] at bound
        rw [le_antisymm bound given.zero, zero_mul, Nat.cast_zero] at short
        exact absurd short (lt_irrefl 0)
    | succ first => exact Nat.lt_succ_of_le ((position_le first).mpr same.le)

theorem position_after_iff (first : Nat) (inside : first < size) (shares : first ∈ sharing size fraction) :
    first < percentilePosition size fraction ↔ (share size first).standing = fraction.standing ∧
      .ofRat (first + 1 : Nat) < (fraction * .ofNat size).standing := by
  rw [← not_le, position_le_iff size fraction q given first, not_le]
  refine ⟨fun past => ⟨?_, past⟩, And.right⟩
  refine share_rounded_up size fraction q given first inside shares fun reaches => ?_
  have whole := (reaching_iff size q given.filled first).mp reaches
  exact absurd (product_le size fraction q given _ whole) past.not_ge

end Shares

/-- A percentile is read at the first position whose share, as a double, is at least the fraction, but for two cases:
the product is rounded down to a whole number, or the share is rounded up to the fraction. -/
theorem percentile_near_share (bag : SortedBag) (reachable : bag.Reachable) (frozen : bag.isFrozen = true)
    (fraction : Binary64) (q : ℚ) (given : FractionOf bag.size fraction q) :
    ∃ first, IsLeast (sharing bag.size fraction) first ∧ first < bag.size ∧
      ∃ position value, bag.percentile fraction = .ok value ∧ bag.get position = .ok value ∧
        first ≤ position + 1 ∧ position ≤ first + 1 ∧
        (position < first ↔
          (fraction * .ofNat bag.size).standing = .ofRat first ∧ first < q * bag.size) ∧
        (first < position ↔ (share bag.size first).standing = fraction.standing ∧
          .ofRat (first + 1 : Nat) < (fraction * .ofNat bag.size).standing) := by
  have valid := reachable_valid bag reachable
  have exact_least := reaching_least bag.size q given.filled
  generalize ⌈q * bag.size⌉₊ - 1 = exact_first at exact_least
  have exact_inside := least_inside bag.size fraction q given exact_first exact_least
  obtain ⟨first, least, le, after⟩ := sharing_least_exists bag.size fraction q given exact_first exact_least
  have inside : first < bag.size := by omega
  have above := position_le_least bag.size fraction q given exact_first exact_least
  have below := least_le_position bag.size fraction q given exact_first exact_least
  obtain ⟨value, read⟩ := get_answers bag (percentilePosition bag.size fraction) valid frozen (by omega)
  refine ⟨first, least, inside, percentilePosition bag.size fraction, value, ?_, read, by omega, by omega, ?_, ?_⟩
  · rw [percentile_reads bag fraction q frozen given, read]
  · exact position_before_iff bag.size fraction q given first exact_first exact_least le
  · exact position_after_iff bag.size fraction q given first inside least.1

-- The double nearest to 0.28 is a little more than seven of 25, so the eighth value is the first that reaches it; only
-- as a double is the share of the first seven rounded up to it.
theorem percentile_near_share_after :
    let bag := empty.after [.addAll ((List.range 25).map fun n => .integer (.ofNat n)), .freeze]
    let fraction := Binary64.ofBits 0x3fd1eb851eb851ec
    fraction.standing = .ofRat (5044031582654956 / 2 ^ 54) ∧ bag.percentile fraction = .ok (.integer 7) ∧
      ∃ first position, IsLeast (sharing bag.size fraction) first ∧ bag.get position = .ok (.integer 7) ∧
        first ≤ position + 1 ∧ position ≤ first + 1 := by
  intro bag fraction
  have size : bag.size = 25 := by decide +kernel
  have frozen : bag.isFrozen = true := by decide +kernel
  have read : bag.percentile fraction = .ok (.integer 7) := by decide +kernel
  have stands : fraction.standing = .ofRat (5044031582654956 / 2 ^ 54) := by
    have same : fraction = .finite false ⟨0x3fd1eb851eb851ec, by decide⟩ := by decide +kernel
    rw [same, Binary64.standing, Binary64.value]
    norm_num
  obtain ⟨first, least, _, position, value, found, at_position, low, high, _⟩ := percentile_near_share bag
    ⟨_, rfl⟩ frozen fraction _ ⟨stands, by norm_num, by norm_num, by omega, by omega⟩
  rw [read, Except.ok.injEq] at found
  subst found
  exact ⟨stands, read, first, position, least, at_position, low, high⟩

-- The double next above a third of three values: the share of the first value is below it, but the
-- product is rounded down to one.
theorem percentile_before_share :
    let bag := empty.after [.addAll [.integer 1, .integer 2, .integer 3], .freeze]
    let fraction := Binary64.ofBits 0x3fd5555555555556
    IsLeast (sharing bag.size fraction) 1 ∧ bag.get 1 = .ok (.integer 2) ∧
      bag.percentile fraction = .ok (.integer 1) ∧
      ¬∃ first, IsLeast (sharing bag.size fraction) first ∧ bag.percentile fraction = bag.get first := by
  intro bag fraction
  have reached : fraction.atMost (share bag.size 1) = true := by decide +kernel
  have short : ¬fraction.atMost (share bag.size 0) = true := by decide +kernel
  have least : IsLeast (sharing bag.size fraction) 1 :=
    ⟨reached, fun position shares => Nat.one_le_iff_ne_zero.mpr fun zero => short (zero ▸ shares)⟩
  have second : bag.get 1 = .ok (.integer 2) := by decide +kernel
  have read : bag.percentile fraction = .ok (.integer 1) := by decide +kernel
  refine ⟨least, second, read, ?_⟩
  rintro ⟨first, also, same⟩
  rw [also.unique least, read, second] at same
  revert same
  decide

end SortedBag

end Aggregation
