import Mathlib
import Aggregation.Proofs.Binary64.Sign
import Aggregation.Proofs.Moments

set_option autoImplicit false

namespace Aggregation.Moments

open Binary64 Standing

theorem share_le (δ d g k : ℚ) (low : 0 ≤ δ) (deviation : rounded δ = ofRat d)
    (quotient : rounded (d / g) = ofRat k) (two : 2 ≤ g) : 0 ≤ k ∧ k ≤ δ := by
  have dLow : 0 ≤ d := by
    rw [← of_rat_strict_mono.le_iff_le, ← rounded_zero, ← deviation]
    exact rounded_mono low
  have kLow : 0 ≤ k := by
    rw [← of_rat_strict_mono.le_iff_le, ← rounded_zero, ← quotient]
    exact rounded_mono (div_nonneg dLow (by linarith))
  refine ⟨kLow, ?_⟩
  by_contra above
  rcases dLow.eq_or_lt with level | positive
  · rw [← level, zero_div, rounded_zero] at quotient
    have zero := of_rat_strict_mono.injective quotient
    linarith
  · have reached : d ≤ k := by
      rw [← of_rat_strict_mono.le_iff_le, ← deviation, ← rounded_again _ k quotient]
      exact rounded_mono (le_of_not_ge above)
    have short : k < d := by
      rw [← of_rat_strict_mono.lt_iff_lt, ← quotient]
      calc rounded (d / g) ≤ rounded (d / 2) := rounded_mono (div_le_div_of_nonneg_left dLow two_pos two)
        _ < ofRat d := rounded_half d positive (rounded_again δ d deviation)
    linarith

theorem share_between (δ d g k : ℚ) (deviation : rounded δ = ofRat d)
    (quotient : rounded (d / g) = ofRat k) (two : 2 ≤ g) : k ∈ Set.uIcc 0 δ := by
  rcases le_total 0 δ with low | high
  · exact Set.Icc_subset_uIcc (share_le δ d g k low deviation quotient two)
  · have negated := neg_rounded (d / g) k quotient
    rw [← neg_div] at negated
    obtain ⟨kLow, kHigh⟩ :=
      share_le (-δ) (-d) g (-k) (neg_nonneg.mpr high) (neg_rounded δ d deviation) negated two
    exact Set.Icc_subset_uIcc' ⟨neg_le_neg_iff.mp kHigh, neg_nonneg.mp kLow⟩

theorem div_between (d g : ℚ) (two : 2 ≤ g) : d / g ∈ Set.uIcc 0 d := by
  rcases le_total 0 d with low | high
  · exact Set.Icc_subset_uIcc ⟨div_nonneg low (by linarith), div_le_self low (by linarith)⟩
  · refine Set.Icc_subset_uIcc' ⟨?_, div_nonpos_of_nonpos_of_nonneg high (by linarith)⟩
    rw [le_div_iff₀ (by linarith)]
    nlinarith

section Step

variable (a m count : Binary64) (x μ g : ℚ) (exact_a : a.standing = ofRat x) (exact_m : m.standing = ofRat μ)
  (finite : (a - m).isFinite = true)

include exact_a exact_m finite

theorem moved_between (exact_count : count.standing = ofRat g) (two : 2 ≤ g) :
    ∃ ν ∈ Set.uIcc μ x, (m + (a - m) / count).standing = ofRat ν := by
  obtain ⟨d, deviation⟩ := (is_finite_iff _).mp finite
  have stands := sub_rounded a m x μ exact_a exact_m
  rw [deviation] at stands
  have divided := div_rounded _ count d g deviation exact_count (by linarith)
  obtain ⟨k, _, share⟩ := rounded_between _ 0 (d / g) d 0 d divided rounded_zero
    (rounded_again _ d stands.symm) (div_between d g two)
  rw [share] at divided
  have inside := share_between (x - μ) d g k stands.symm divided.symm two
  have moved := add_rounded m _ μ k exact_m share
  refine rounded_between _ μ (μ + k) x μ x moved (rounded_exact m μ exact_m) (rounded_exact a x exact_a) ?_
  rcases Set.mem_uIcc.mp inside with ⟨low, high⟩ | ⟨low, high⟩
  · exact Set.Icc_subset_uIcc ⟨by linarith, by linarith⟩
  · exact Set.Icc_subset_uIcc' ⟨by linarith, by linarith⟩

theorem product_not_negative (m' : Binary64) (ν : ℚ) (exact_m' : m'.standing = ofRat ν)
    (between : ν ∈ Set.uIcc μ x) : zero.atMost ((a - m) * (a - m')) = true := by
  obtain ⟨d, deviation⟩ := (is_finite_iff _).mp finite
  have stands := sub_rounded a m x μ exact_a exact_m
  rw [deviation] at stands
  have later := sub_rounded a m' x ν exact_a exact_m'
  have shorter : x - ν ∈ Set.uIcc 0 (x - μ) := by
    rcases Set.mem_uIcc.mp between with ⟨low, high⟩ | ⟨low, high⟩
    · exact Set.Icc_subset_uIcc ⟨by linarith, by linarith⟩
    · exact Set.Icc_subset_uIcc' ⟨by linarith, by linarith⟩
  obtain ⟨e, inside, rest⟩ := rounded_between _ 0 (x - ν) (x - μ) 0 d later rounded_zero stands.symm shorter
  apply not_negative_rounded _ (d * e) (mul_rounded _ _ d e deviation rest)
  rcases Set.mem_uIcc.mp inside with ⟨low, high⟩ | ⟨low, high⟩
  · exact mul_nonneg (low.trans high) low
  · exact mul_nonneg_of_nonpos_of_nonpos (low.trans high) high

end Step

structure Level (numbers : List Binary64) (moments : Moments Binary64) : Prop where
  mean : ∃ low ∈ numbers, ∃ high ∈ numbers, moments.mean.standing ∈ Set.Icc low.standing high.standing
  squares : zero.atMost moments.squares = true

-- After an infinite deviation the mean is lost to infinity and the squares to its negative, and neither comes back.
structure Burst (moments : Moments Binary64) : Prop where
  mean : moments.mean.isFinite = false
  squares : Sunk moments.squares

theorem level_finite (numbers : List Binary64) (moments : Moments Binary64)
    (finite : ∀ x ∈ numbers, x.isFinite = true) (level : Level numbers moments) :
    ∃ μ, moments.mean.standing = ofRat μ := by
  obtain ⟨low, lowIn, high, highIn, inside⟩ := level.mean
  obtain ⟨p, exact_low⟩ := (is_finite_iff low).mp (finite low lowIn)
  obtain ⟨q, exact_high⟩ := (is_finite_iff high).mp (finite high highIn)
  rw [exact_low, exact_high] at inside
  obtain ⟨μ, _, exact_mean⟩ := between_finite _ p q (Set.Icc_subset_uIcc inside)
  exact ⟨μ, exact_mean⟩

theorem level_next (numbers : List Binary64) (moments : Moments Binary64) (a count : Binary64) (μ x g : ℚ)
    (level : Level numbers moments) (exact_m : moments.mean.standing = ofRat μ)
    (exact_a : a.standing = ofRat x) (exact_count : count.standing = ofRat g) (two : 2 ≤ g)
    (finite : (a - moments.mean).isFinite = true) : Level (numbers ++ [a]) (moments.moved a count) := by
  obtain ⟨⟨low, lowIn, high, highIn, above, below⟩, squares⟩ := level
  obtain ⟨ν, inside, mean⟩ := moved_between a _ count x μ g exact_a exact_m finite exact_count two
  have product := product_not_negative a _ x μ exact_a exact_m finite _ ν mean inside
  rw [exact_m] at above below
  have last : a ∈ numbers ++ [a] := by simp
  refine ⟨?_, add_not_negative _ _ squares product⟩
  rcases Set.mem_uIcc.mp inside with ⟨lower, upper⟩ | ⟨lower, upper⟩
  · refine ⟨low, List.mem_append_left _ lowIn, a, last, ?_⟩
    rw [moved, mean, exact_a]
    exact ⟨above.trans (of_rat_strict_mono.monotone lower), of_rat_strict_mono.monotone upper⟩
  · refine ⟨a, last, high, List.mem_append_left _ highIn, ?_⟩
    rw [moved, mean, exact_a]
    exact ⟨of_rat_strict_mono.monotone lower, (of_rat_strict_mono.monotone upper).trans below⟩

theorem burst_first (moments : Moments Binary64) (a : Binary64) (index : Fin finiteCount) (μ x : ℚ)
    (squares : zero.atMost moments.squares = true) (exact_m : moments.mean.standing = ofRat μ)
    (exact_a : a.standing = ofRat x) (infinite : (a - moments.mean).isFinite = false) :
    Burst (moments.moved a (.finite false index)) := by
  have number := rounded_lt_top (x - μ)
  rw [← sub_rounded a _ x μ exact_a exact_m] at number
  rw [moved]
  cases deviation : a - moments.mean with
  | nan =>
      rw [deviation] at number
      exact absurd rfl number.ne
  | finite negative place =>
      rw [deviation] at infinite
      cases infinite
  | infinity negative =>
      obtain ⟨aSign, aIndex, rfl, _⟩ := finite_of_standing a x exact_a
      obtain ⟨mSign, mIndex, mean, _⟩ := finite_of_standing _ μ exact_m
      have share : Binary64.infinity negative / finite false index = .infinity negative := by
        cases negative <;> rfl
      have away : finite mSign mIndex + .infinity negative = .infinity negative := rfl
      have back : finite aSign aIndex - .infinity negative = .infinity (!negative) := rfl
      have product : Binary64.infinity negative * .infinity (!negative) = .infinity true := by
        cases negative <;> rfl
      rw [mean, share, away, back, product]
      exact ⟨rfl, sunk_add _ squares⟩

theorem burst_next (moments : Moments Binary64) (a : Binary64) (index : Fin finiteCount)
    (burst : Burst moments) (finite : a.isFinite = true) : Burst (moments.moved a (.finite false index)) := by
  obtain ⟨mean, squares⟩ := moments
  obtain ⟨lost, sunk⟩ : mean.isFinite = false ∧ Sunk squares := ⟨burst.mean, burst.squares⟩
  obtain ⟨x, exact_a⟩ := (is_finite_iff a).mp finite
  obtain ⟨aSign, aIndex, rfl, _⟩ := finite_of_standing a x exact_a
  have gone : moved ⟨mean, squares⟩ (.finite aSign aIndex) (.finite false index) = ⟨.nan, .nan⟩ := by
    cases mean with
    | nan => cases sunk <;> rfl
    | infinity negative => cases negative <;> cases sunk <;> rfl
    | finite negative place => cases lost
  rw [gone]
  exact ⟨rfl, .nan⟩

-- Every number but the first is at a finite distance, as doubles are subtracted, from the mean of those
-- before it.
def Steady (numbers : List Binary64) : Prop :=
  ∀ before x later, numbers = before ++ x :: later → before ≠ [] →
    (x - (gather .ofNat before).mean).isFinite = true

theorem steady_nil : Steady [] := fun before x later split => by simp at split

theorem steady_append (numbers : List Binary64) (a : Binary64) :
    Steady (numbers ++ [a]) ↔
      Steady numbers ∧ (numbers ≠ [] → (a - (gather .ofNat numbers).mean).isFinite = true) := by
  constructor
  · intro steady
    refine ⟨fun before x later split nonempty => ?_, steady numbers a [] rfl⟩
    exact steady before x (later ++ [a]) (by simp [split]) nonempty
  · rintro ⟨steady, last⟩ before x later split nonempty
    obtain rfl | ⟨init, final, rfl⟩ := List.eq_nil_or_concat' later
    · obtain ⟨rfl, same⟩ := List.append_inj' split rfl
      cases same
      exact last nonempty
    · rw [← List.cons_append, ← List.append_assoc] at split
      exact steady before x init (List.append_inj' split rfl).1 nonempty

theorem count_form (n : Nat) (later : 2 ≤ n) (few : n < 2 ^ 64) :
    ∃ index g, 2 ≤ g ∧ ofNat n = .finite false index ∧ (ofNat n).standing = ofRat g := by
  obtain ⟨g, two, exact_g⟩ := count_standing n 2 later (by norm_num) few
  have positive : (0 : ℚ) < g := two_pos.trans_le two
  obtain ⟨index, _, form, _⟩ := positive_form _ g exact_g positive
  exact ⟨index, g, two, form, exact_g⟩

inductive Settles (numbers : List Binary64) (moments : Moments Binary64) : Prop where
  | level (steady : Steady numbers) (level : Level numbers moments) : Settles numbers moments
  | burst (unsteady : ¬Steady numbers) (burst : Burst moments) : Settles numbers moments

theorem settles_one (a : Binary64) : Settles [a] (gather .ofNat [a]) := by
  have steady : Steady [a] := (steady_append [] a).mpr ⟨steady_nil, absurd rfl⟩
  rw [gather_one]
  exact .level steady ⟨⟨a, by simp, a, by simp, le_refl _, le_refl _⟩, zero_not_negative⟩

theorem settles_next (numbers : List Binary64) (a : Binary64) (nonempty : numbers ≠ [])
    (finite : ∀ x ∈ numbers ++ [a], x.isFinite = true) (few : numbers.length + 1 < 2 ^ 64)
    (settles : Settles numbers (gather .ofNat numbers)) :
    Settles (numbers ++ [a]) (gather .ofNat (numbers ++ [a])) := by
  obtain ⟨before, last⟩ := List.forall_mem_append.mp finite
  have here := last a List.mem_cons_self
  obtain ⟨x, exact_a⟩ := (is_finite_iff a).mp here
  have two : 2 ≤ numbers.length + 1 := Nat.succ_le_succ (List.length_pos_iff.mpr nonempty)
  obtain ⟨index, g, large, count, exact_count⟩ := count_form _ two few
  have next := steady_append numbers a
  rw [gather_next .ofNat numbers a nonempty]
  cases settles with
  | level steady level =>
      obtain ⟨μ, exact_m⟩ := level_finite numbers _ before level
      by_cases near : (a - (gather .ofNat numbers).mean).isFinite = true
      · exact .level (next.mpr ⟨steady, fun _ => near⟩)
          (level_next numbers _ a _ μ x g level exact_m exact_a exact_count large near)
      · rw [count]
        exact .burst (fun whole => near ((next.mp whole).2 nonempty))
          (burst_first _ a index μ x level.squares exact_m exact_a (Bool.eq_false_iff.mpr near))
  | burst unsteady burst =>
      rw [count]
      exact .burst (fun whole => unsteady (next.mp whole).1) (burst_next _ a index burst here)

theorem gather_settles (numbers : List Binary64) (nonempty : numbers ≠ [])
    (finite : ∀ x ∈ numbers, x.isFinite = true) (few : numbers.length < 2 ^ 64) :
    Settles numbers (gather .ofNat numbers) := by
  induction numbers using List.reverseRecOn with
  | nil => exact absurd rfl nonempty
  | append_singleton before a ih =>
      by_cases first : before = []
      · rw [first]
        exact settles_one a
      · have shorter : before.length + 1 < 2 ^ 64 := by
          rwa [List.length_append] at few
        have settles := ih first (List.forall_mem_append.mp finite).1 (by omega)
        exact settles_next before a first finite shorter settles

theorem level_near (numbers : List Binary64) (moments : Moments Binary64) (a : Binary64)
    (finite : ∀ x ∈ numbers, x.isFinite = true) (last : a.isFinite = true)
    (near : ∀ x ∈ numbers, (a - x).isFinite = true) (level : Level numbers moments) :
    (a - moments.mean).isFinite = true := by
  obtain ⟨μ, exact_m⟩ := level_finite numbers moments finite level
  obtain ⟨low, lowIn, high, highIn, above, below⟩ := level.mean
  obtain ⟨x, exact_a⟩ := (is_finite_iff a).mp last
  obtain ⟨p, exact_low⟩ := (is_finite_iff low).mp (finite low lowIn)
  obtain ⟨q, exact_high⟩ := (is_finite_iff high).mp (finite high highIn)
  obtain ⟨u, left⟩ := (is_finite_iff _).mp (near high highIn)
  obtain ⟨v, right⟩ := (is_finite_iff _).mp (near low lowIn)
  rw [sub_rounded a high x q exact_a exact_high] at left
  rw [sub_rounded a low x p exact_a exact_low] at right
  rw [exact_m, exact_low, of_rat_strict_mono.le_iff_le] at above
  rw [exact_m, exact_high, of_rat_strict_mono.le_iff_le] at below
  have between : x - μ ∈ Set.uIcc (x - q) (x - p) := Set.Icc_subset_uIcc ⟨by linarith, by linarith⟩
  obtain ⟨d, _, deviation⟩ :=
    rounded_between _ _ _ _ u v (sub_rounded a _ x μ exact_a exact_m) left right between
  exact (is_finite_iff _).mpr ⟨d, deviation⟩

theorem steady_of_differences (numbers : List Binary64) (finite : ∀ x ∈ numbers, x.isFinite = true)
    (few : numbers.length < 2 ^ 64) (near : ∀ x ∈ numbers, ∀ y ∈ numbers, (x - y).isFinite = true) :
    Steady numbers := by
  induction numbers using List.reverseRecOn with
  | nil => exact steady_nil
  | append_singleton before a ih =>
      obtain ⟨earlier, last⟩ := List.forall_mem_append.mp finite
      rw [List.length_append] at few
      have inside (x : Binary64) (member : x ∈ before) : x ∈ before ++ [a] := List.mem_append_left _ member
      have steady := ih earlier (by omega) fun x left y right => near x (inside x left) y (inside y right)
      refine (steady_append before a).mpr ⟨steady, fun nonempty => ?_⟩
      cases gather_settles before nonempty earlier (by omega) with
      | level _ level =>
          exact level_near before _ a earlier (last a List.mem_cons_self)
            (fun x member => near a (by simp) x (inside x member)) level
      | burst unsteady _ => exact absurd steady unsteady

end Aggregation.Moments
