import Mathlib
import Aggregation.Bisection

set_option autoImplicit false

namespace Aggregation

def Splits (test : Nat → Bool) (size point : Nat) : Prop :=
  point ≤ size ∧ (∀ i, i < point → test i = true) ∧ ∀ i, point ≤ i → i < size → test i = false

theorem splits_exists (test : Nat → Bool) (size : Nat)
    (initial : ∀ i j, i ≤ j → j < size → test j = true → test i = true) :
    ∃ point, Splits test size point := by
  induction size with
  | zero => exact ⟨0, by omega, fun i less => by omega, fun i _ less => by omega⟩
  | succ size ih =>
      cases last : test size with
      | true =>
          refine ⟨size + 1, by omega, ?_, fun i _ less => by omega⟩
          exact fun i less => initial i size (by omega) (by omega) last
      | false =>
          obtain ⟨point, inside, left, right⟩ := ih fun i j le less => initial i j le (by omega)
          refine ⟨point, by omega, left, fun i le less => ?_⟩
          by_cases same : i = size
          · rw [same, last]
          · exact right i le (by omega)

-- The point stays inside the interval, and each step halves the interval.
theorem narrow_finds (test : Nat → Bool) (size point fuel low high : Nat)
    (splits : Splits test size point) (lower : low ≤ point) (upper : point ≤ high)
    (inside : high ≤ size) (enough : high - low < 2 ^ fuel) : narrow test fuel low high = point := by
  induction fuel generalizing low high with
  | zero =>
      rw [Nat.pow_zero] at enough
      rw [narrow]
      omega
  | succ fuel ih =>
      rw [Nat.pow_succ] at enough
      rw [narrow]
      by_cases active : low < high
      · rw [if_pos active]
        by_cases left : (low + high) / 2 < point
        · simp only [splits.2.1 _ left, if_true]
          exact ih _ _ (by omega) upper inside (by omega)
        · simp only [splits.2.2 ((low + high) / 2) (by omega) (by omega), Bool.false_eq_true, if_false]
          exact ih _ _ lower (by omega) (by omega) (by omega)
      · rw [if_neg active]
        omega

theorem partition_point_eq (test : Nat → Bool) (size point : Nat) (splits : Splits test size point) :
    partitionPoint test size = point :=
  narrow_finds test size point _ 0 size splits (by omega) splits.1 (by omega) Nat.lt_log2_self

theorem partition_point_splits (test : Nat → Bool) (size : Nat)
    (initial : ∀ i j, i ≤ j → j < size → test j = true → test i = true) :
    Splits test size (partitionPoint test size) := by
  obtain ⟨point, splits⟩ := splits_exists test size initial
  rwa [partition_point_eq test size point splits]

structure Turns (test : Nat → Bool) (size point : Nat) : Prop where
  inside : point ≤ size
  before : ∀ i, point = i + 1 → test i = true
  here : point < size → test point = false

theorem narrow_turns (test : Nat → Bool) (size fuel low high : Nat) (le : low ≤ high) (inside : high ≤ size)
    (before : ∀ i, low = i + 1 → test i = true) (here : high < size → test high = false)
    (enough : high - low < 2 ^ fuel) : Turns test size (narrow test fuel low high) := by
  induction fuel generalizing low high with
  | zero =>
      rw [Nat.pow_zero] at enough
      have same : low = high := by omega
      rw [narrow]
      exact ⟨by omega, before, same ▸ here⟩
  | succ fuel ih =>
      rw [Nat.pow_succ] at enough
      rw [narrow]
      by_cases active : low < high
      · rw [if_pos active]
        cases middle : test ((low + high) / 2) with
        | true =>
            simp only [middle, if_true]
            refine ih _ _ (by omega) inside (fun i same => ?_) here (by omega)
            rw [← Nat.succ.inj same, middle]
        | false =>
            simp only [middle, Bool.false_eq_true, if_false]
            exact ih _ _ (by omega) (by omega) before (fun _ => middle) (by omega)
      · have same : low = high := by omega
        rw [if_neg active]
        exact ⟨by omega, before, same ▸ here⟩

theorem partition_point_turns (test : Nat → Bool) (size : Nat) : Turns test size (partitionPoint test size) :=
  narrow_turns test size _ 0 size (Nat.zero_le _) (le_refl _) (fun i same => by omega)
    (fun less => absurd less (lt_irrefl _)) Nat.lt_log2_self

end Aggregation
