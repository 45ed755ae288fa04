import Mathlib
import Aggregation.Binary64.Rounding
import Aggregation.Proofs.Binary64.Units
import Aggregation.Proofs.Bisection

set_option autoImplicit false

namespace Aggregation.Binary64

def Measures (side : Nat → Ordering) (real : ℝ) : Prop :=
  ∀ half : Nat, side half = cmp (half : ℝ) real

theorem midpoint_strict_mono : StrictMono midpoint := by
  intro i j less
  exact Nat.add_lt_add (units_strict_mono less) (units_strict_mono (Nat.succ_lt_succ less))

theorem passes_iff (side : Nat → Ordering) (real : ℝ) (measures : Measures side real) (index : Nat) :
    passes side index = true ↔
      (midpoint index : ℝ) < real ∨ (midpoint index : ℝ) = real ∧ index % 2 = 1 := by
  rw [passes, measures]
  rcases lt_trichotomy (midpoint index : ℝ) real with less | same | more
  · simp [cmp_eq_lt_iff _ _ |>.mpr less, less]
  · simp [same]
  · simp [cmp_eq_gt_iff _ _ |>.mpr more, more.not_gt, more.ne']

theorem nearest_index_splits (side : Nat → Ordering) (real : ℝ) (measures : Measures side real) :
    Splits (passes side) finiteCount (nearestIndex side) := by
  apply partition_point_splits
  intro i j le _ later
  rcases Nat.lt_or_eq_of_le le with less | same
  · have below : (midpoint i : ℝ) < midpoint j := Nat.cast_lt.mpr (midpoint_strict_mono less)
    rw [passes_iff side real measures] at later ⊢
    rcases later with more | ⟨same, _⟩
    · exact .inl (below.trans more)
    · exact .inl (below.trans_eq same)
  · exact same ▸ later

theorem nearest_index_bound (side : Nat → Ordering) (real : ℝ) (measures : Measures side real) :
    nearestIndex side ≤ finiteCount :=
  (nearest_index_splits side real measures).1

theorem nearest_index_mono (side other : Nat → Ordering) (real upper : ℝ)
    (measures : Measures side real) (others : Measures other upper) (le : real ≤ upper) :
    nearestIndex side ≤ nearestIndex other := by
  by_contra above
  have bound := nearest_index_bound side real measures
  have passed := (nearest_index_splits side real measures).2.1 (nearestIndex other) (by omega)
  have stopped := (nearest_index_splits other upper others).2.2 (nearestIndex other) (by omega) (by omega)
  rw [passes_iff side real measures] at passed
  rw [Bool.eq_false_iff, ne_eq, passes_iff other upper others] at stopped
  apply stopped
  rcases passed with less | ⟨same, odd⟩
  · exact .inl (less.trans_le le)
  · rcases le.lt_or_eq with less | equal
    · exact .inl (same.trans_lt less)
    · exact .inr ⟨same.trans equal, odd⟩

theorem nearest_index_exact (side : Nat → Ordering) (index : Nat)
    (measures : Measures side (2 * units index : Nat)) (inside : index ≤ finiteCount) :
    nearestIndex side = index := by
  apply partition_point_eq
  refine ⟨inside, fun i less => ?_, fun i le _ => ?_⟩
  · have lower := units_strict_mono less
    have upper := units_strict_mono.monotone (show i + 1 ≤ index from less)
    have below : midpoint i < 2 * units index := by
      rw [midpoint]
      omega
    exact (passes_iff side _ measures i).mpr (.inl (Nat.cast_lt.mpr below))
  · have lower := units_strict_mono.monotone le
    have upper := units_strict_mono (show index < i + 1 by omega)
    have above : 2 * units index < midpoint i := by
      rw [midpoint]
      omega
    rw [Bool.eq_false_iff, ne_eq, passes_iff side _ measures i, Nat.cast_lt, Nat.cast_inj]
    omega

theorem nearest_index_le (side : Nat → Ordering) (real : ℝ) (measures : Measures side real) (index : Nat)
    (stays : real ≤ midpoint index) (even : index % 2 = 0) : nearestIndex side ≤ index := by
  by_contra above
  have passed := (nearest_index_splits side real measures).2.1 index (by omega)
  rw [passes_iff side real measures] at passed
  rcases passed with less | ⟨_, odd⟩
  · exact absurd stays less.not_ge
  · omega

theorem lt_nearest_index (side : Nat → Ordering) (real : ℝ) (measures : Measures side real) (index : Nat)
    (inside : index < finiteCount) (past : midpoint index < real) : index < nearestIndex side := by
  by_contra below
  have stopped := (nearest_index_splits side real measures).2.2 index (by omega) inside
  rw [Bool.eq_false_iff, ne_eq, passes_iff side real measures] at stopped
  exact stopped (.inl past)

theorem nearest_index_short (side : Nat → Ordering) (real : ℝ) (measures : Measures side real) (index : Nat)
    (short : real < midpoint index) : nearestIndex side ≤ index := by
  by_contra above
  have passed := (nearest_index_splits side real measures).2.1 index (by omega)
  rw [passes_iff side real measures] at passed
  rcases passed with less | ⟨same, _⟩
  · exact absurd less short.not_gt
  · exact absurd same short.ne'

theorem lt_nearest_index_odd (side : Nat → Ordering) (real : ℝ) (measures : Measures side real) (index : Nat)
    (inside : index < finiteCount) (reaches : midpoint index ≤ real) (odd : index % 2 = 1) :
    index < nearestIndex side := by
  by_contra below
  have stopped := (nearest_index_splits side real measures).2.2 index (by omega) inside
  rw [Bool.eq_false_iff, ne_eq, passes_iff side real measures] at stopped
  rcases reaches.lt_or_eq with less | same
  · exact stopped (.inl less)
  · exact stopped (.inr ⟨same, odd⟩)

theorem measures_quotient (num den : Nat) (positive : 0 < den) :
    Measures (fun half => Ord.compare (half * den) (2 * num)) (2 * num / den) := by
  intro half
  have scale : StrictMono fun x : ℝ => x * den := fun _ _ less =>
    mul_lt_mul_of_pos_right less (Nat.cast_pos.mpr positive)
  have restored : (2 * num / den : ℝ) * den = (2 * num : Nat) := by
    rw [div_mul_cancel₀ _ (Nat.cast_ne_zero.mpr positive.ne')]
    push_cast
    rfl
  rw [← scale.cmp_map_eq, restored, ← Nat.cast_mul, (Nat.strictMono_cast (α := ℝ)).cmp_map_eq,
    cmp_eq_compare]

theorem measures_root (square : Nat) :
    Measures (fun half => Ord.compare (half * half) square) (√(square : ℝ)) := by
  intro half
  have squares : StrictMonoOn (fun x : ℝ => x * x) (Set.Ici 0) := fun x low y _ less =>
    mul_self_lt_mul_self low less
  rw [← squares.cmp_map_eq (Set.mem_Ici.mpr (Nat.cast_nonneg half)) (Set.mem_Ici.mpr (Real.sqrt_nonneg square))]
  simp only [Real.mul_self_sqrt (Nat.cast_nonneg square)]
  rw [← Nat.cast_mul, (Nat.strictMono_cast (α := ℝ)).cmp_map_eq, cmp_eq_compare]

theorem index_of_units_bound (num den : Nat) (positive : 0 < den) : indexOfUnits num den ≤ finiteCount :=
  nearest_index_bound _ _ (measures_quotient num den positive)

theorem index_of_units_mono (num den num' den' : Nat) (positive : 0 < den) (positive' : 0 < den')
    (le : num * den' ≤ num' * den) : indexOfUnits num den ≤ indexOfUnits num' den' := by
  apply nearest_index_mono _ _ _ _ (measures_quotient num den positive) (measures_quotient num' den' positive')
  rw [div_le_div_iff₀ (Nat.cast_pos.mpr positive) (Nat.cast_pos.mpr positive')]
  have cast : ((num * den' : Nat) : ℝ) ≤ (num' * den : Nat) := Nat.cast_le.mpr le
  push_cast at cast
  linarith

theorem index_of_units_exact (den index : Nat) (positive : 0 < den) (inside : index ≤ finiteCount) :
    indexOfUnits (units index * den) den = index := by
  have measures := measures_quotient (units index * den) den positive
  have real : (2 * (units index * den : Nat) / den : ℝ) = (2 * units index : Nat) := by
    rw [div_eq_iff (Nat.cast_ne_zero.mpr positive.ne')]
    push_cast
    ring
  rw [real] at measures
  exact nearest_index_exact _ index measures inside

section Passing

variable (num den index : Nat) (positive : 0 < den) (inside : index ≤ finiteCount)

include positive inside

theorem units_of_units_le (le : num ≤ units index * den) : units (indexOfUnits num den) ≤ units index := by
  have mono := index_of_units_mono num den (units index * den) den positive positive
    (Nat.mul_le_mul_right den le)
  rw [index_of_units_exact den index positive inside] at mono
  exact units_strict_mono.monotone mono

theorem le_units_of_units (le : units index * den ≤ num) : units index ≤ units (indexOfUnits num den) := by
  have mono := index_of_units_mono (units index * den) den num den positive positive
    (Nat.mul_le_mul_right den le)
  rw [index_of_units_exact den index positive inside] at mono
  exact units_strict_mono.monotone mono

theorem le_units_of_ratio (le : units index * den ≤ num * unitsInOne) :
    units index ≤ units (indexOfRatio num den) :=
  le_units_of_units _ den index positive inside le

theorem rounded_place_le (negative other : Bool)
    (le : signed negative num ≤ signed other (units index) * den) :
    signed negative (units (indexOfUnits num den)) ≤ signed other (units index) := by
  have wide : units index ≤ units index * den := Nat.le_mul_of_pos_right _ positive
  rw [← signed_mul] at le
  cases negative with
  | false =>
      have bound : num ≤ units index * den := by
        cases other <;> simp only [signed_true, signed_false] at le <;> omega
      have mono := units_of_units_le num den index positive inside bound
      cases other <;> simp only [signed_true, signed_false] at le ⊢ <;> omega
  | true =>
      cases other with
      | false =>
          simp only [signed_true, signed_false]
          omega
      | true =>
          have bound : units index * den ≤ num := by
            simp only [signed_true] at le
            omega
          have mono := le_units_of_units num den index positive inside bound
          simp only [signed_true]
          omega

theorem le_rounded_place (negative other : Bool)
    (le : signed other (units index) * den ≤ signed negative num) :
    signed other (units index) ≤ signed negative (units (indexOfUnits num den)) := by
  have flipped : signed (!negative) num ≤ signed (!other) (units index) * den := by
    rw [← neg_signed, ← neg_signed, Int.neg_mul]
    exact Int.neg_le_neg le
  have mono := rounded_place_le num den index positive inside (!negative) (!other) flipped
  rw [← neg_signed, ← neg_signed] at mono
  exact Int.neg_le_neg_iff.mp mono

end Passing

theorem place_form (x : Binary64) (place : Int) (found : x.place? = some place) :
    ∃ negative index, index ≤ finiteCount ∧ place = signed negative (units index) := by
  cases x with
  | nan => cases found
  | infinity negative =>
      cases found
      exact ⟨negative, finiteCount, le_refl _, rfl⟩
  | finite negative index =>
      cases found
      exact ⟨negative, index.val, index.isLt.le, rfl⟩

theorem place_of_index (negative : Bool) (index : Nat) (inside : index ≤ finiteCount) :
    (ofIndex negative index).place? = some (signed negative (units index)) := by
  rw [ofIndex]
  split
  · rfl
  · rw [show index = finiteCount by omega]
    rfl

end Aggregation.Binary64
