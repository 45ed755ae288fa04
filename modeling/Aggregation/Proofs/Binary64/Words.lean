import Mathlib
import Aggregation.Proofs.Binary64.Integers

set_option autoImplicit false

namespace Aggregation.Binary64

def edge : Nat := binade * (unitPlaces + 12)

theorem edge_inside : edge < finiteCount := by decide

theorem units_edge : units edge = 2 ^ 63 * unitsInOne := by
  rw [edge, units_power, unitsInOne, Nat.one_shiftLeft, Nat.pow_add, show binade = 2 ^ 52 by decide]
  ring

theorem units_past_edge : units (edge + 1) = (2 ^ 63 + 2048) * unitsInOne := by
  have spacing : edge / binade - 1 = unitPlaces + 11 := by decide
  rw [units_succ, units_edge, spacing, unitsInOne, Nat.one_shiftLeft, Nat.pow_add]
  ring

-- The double next below 2^63 is at half the distance of the one above.
theorem units_before_edge : units (edge - 1) = (2 ^ 63 - 1024) * unitsInOne := by
  have spacing : (edge - 1) / binade - 1 = unitPlaces + 10 := by decide
  have gap : 2 ^ ((edge - 1) / binade - 1) = 1024 * unitsInOne := by
    rw [spacing, unitsInOne, Nat.one_shiftLeft, Nat.pow_add]
    ring
  have next := units_succ (edge - 1)
  rw [gap, Nat.sub_add_cancel (show 1 ≤ edge by decide), units_edge] at next
  omega

section Rounded

variable (n : Nat)

theorem midpoint_edge : (midpoint edge : ℝ) = 2 * ((2 ^ 63 + 1024) * unitsInOne : Nat) := by
  rw [midpoint, units_edge, units_past_edge]
  push_cast
  ring

theorem measures_nat : Measures (fun half => Ord.compare (half * 1) (2 * (n * unitsInOne)))
    (2 * (n * unitsInOne : Nat)) := by
  have measures := measures_quotient (n * unitsInOne) 1 Nat.one_pos
  rwa [Nat.cast_one, div_one] at measures

theorem midpoint_before_edge : (midpoint (edge - 1) : ℝ) = 2 * ((2 ^ 63 - 512) * unitsInOne : Nat) := by
  have sum : midpoint (edge - 1) = 2 * ((2 ^ 63 - 512) * unitsInOne) := by
    rw [midpoint, units_before_edge, Nat.sub_add_cancel (show 1 ≤ edge by decide), units_edge]
    omega
  rw [sum]
  push_cast
  rfl

theorem edge_le_rounded (large : 2 ^ 63 - 512 ≤ n) : 2 ^ 63 * unitsInOne ≤ units (indexOfRatio n 1) := by
  rw [← units_edge, units_strict_mono.le_iff_le]
  refine Nat.le_of_pred_lt (lt_nearest_index_odd _ _ (measures_nat n) (edge - 1) (by decide) ?_ (by decide))
  rw [midpoint_before_edge]
  exact mul_le_mul_of_nonneg_left (Nat.cast_le.mpr (Nat.mul_le_mul_right _ large)) zero_le_two

theorem rounded_before_edge (small : n < 2 ^ 63 - 512) :
    units (indexOfRatio n 1) ≤ (2 ^ 63 - 1024) * unitsInOne := by
  rw [← units_before_edge, units_strict_mono.le_iff_le]
  refine nearest_index_short _ _ (measures_nat n) (edge - 1) ?_
  rw [midpoint_before_edge]
  exact mul_lt_mul_of_pos_left (Nat.cast_lt.mpr (Nat.mul_lt_mul_of_pos_right small units_in_one_pos)) two_pos

theorem rounded_to_edge (large : 2 ^ 63 - 512 ≤ n) (near : n ≤ 2 ^ 63 + 1024) :
    units (indexOfRatio n 1) = 2 ^ 63 * unitsInOne := by
  refine le_antisymm ?_ (edge_le_rounded n large)
  rw [← units_edge, units_strict_mono.le_iff_le]
  refine nearest_index_le _ _ (measures_nat n) edge ?_ (by decide)
  rw [midpoint_edge]
  exact mul_le_mul_of_nonneg_left (Nat.cast_le.mpr (Nat.mul_le_mul_right _ near)) zero_le_two

theorem past_edge_le_rounded (far : 2 ^ 63 + 1024 < n) :
    (2 ^ 63 + 2048) * unitsInOne ≤ units (indexOfRatio n 1) := by
  rw [← units_past_edge, units_strict_mono.le_iff_le]
  refine lt_nearest_index _ _ (measures_nat n) edge edge_inside ?_
  rw [midpoint_edge]
  exact mul_lt_mul_of_pos_left (Nat.cast_lt.mpr (Nat.mul_lt_mul_of_pos_right far units_in_one_pos)) two_pos

end Rounded

end Aggregation.Binary64
