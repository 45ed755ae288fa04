import Mathlib
import Aggregation.Decimal.Shortest
import Aggregation.Proofs.Binary64.Rounding

set_option autoImplicit false

namespace Aggregation.Decimal

open Binary64

def value (d : Decimal) : ℚ :=
  d.significand * 10 ^ d.exponent

theorem denominator_pos (d : Decimal) : 0 < d.denominator := by
  rw [denominator, Nat.pow_eq]
  positivity

theorem value_eq_ratio (d : Decimal) : d.value = d.numerator / d.denominator := by
  obtain ⟨significand, exponent⟩ := d
  rw [value, numerator, denominator, Nat.pow_eq, Nat.pow_eq]
  cases exponent with
  | ofNat places => simp
  | negSucc places => simp [zpow_negSucc, div_eq_mul_inv, Int.neg_negSucc]

theorem value_scaled (significand places : Nat) (exponent : Int) :
    value ⟨significand * 10 ^ places, exponent⟩ = value ⟨significand, exponent + places⟩ := by
  rw [value, value, zpow_add₀ (by norm_num), zpow_natCast]
  push_cast
  ring

theorem index_of_value (d e : Decimal) (same : d.value = e.value) :
    indexOfRatio d.numerator d.denominator = indexOfRatio e.numerator e.denominator := by
  have left := d.denominator_pos
  have right := e.denominator_pos
  rw [value_eq_ratio, value_eq_ratio, div_eq_div_iff (Nat.cast_ne_zero.mpr left.ne')
    (Nat.cast_ne_zero.mpr right.ne')] at same
  have cross : d.numerator * unitsInOne * e.denominator = e.numerator * unitsInOne * d.denominator := by
    rw [Nat.mul_right_comm, Nat.mul_right_comm e.numerator]
    exact congrArg (· * unitsInOne) (by exact_mod_cast same)
  exact le_antisymm (index_of_units_mono _ _ _ _ left right cross.le)
    (index_of_units_mono _ _ _ _ right left cross.ge)

theorem exact_reads_back (index : Nat) (inside : index ≤ finiteCount) :
    readsBack index (exact index) = true := by
  have whole : (exact index).numerator * unitsInOne = units index * (exact index).denominator := by
    simp only [numerator, denominator, exact, Nat.pow_eq, unitsInOne, Nat.one_shiftLeft, neg_neg]
    rw [show (-(unitPlaces : Int)).toNat = 0 by decide, Int.toNat_natCast, Nat.pow_zero, Nat.mul_one,
      Nat.mul_assoc, ← Nat.mul_pow]
  rw [readsBack, indexOfRatio, whole, index_of_units_exact _ _ (denominator_pos _) inside]
  exact beq_self_eq_true index

theorem zero_reads_back : readsBack 0 ⟨0, 0⟩ = true := by
  have zero : indexOfRatio 0 1 = 0 := index_of_units_exact 1 0 Nat.one_pos (Nat.zero_le _)
  rw [readsBack, numerator, denominator, Nat.zero_mul]
  exact beq_iff_eq.mpr zero

-- The definition is opened as a function: applied to its arguments, the kernel would run the search.
theorem on_grid_outcome (index : Nat) (exponent : Int) (d : Decimal)
    (found : onGrid? index exponent = some d) :
    readsBack index d = true ∧ d.exponent = exponent ∧
      d.significand ≤ (floor index exponent).significand + 1 := by
  have opened : onGrid? = onGrid? := rfl
  conv at opened => rhs; delta onGrid?
  rw [congrFun (congrFun opened index) exponent] at found
  extract_lets lower upper at found
  have lowerPlace : lower.exponent = exponent ∧
      lower.significand ≤ (floor index exponent).significand + 1 := ⟨rfl, Nat.le_succ _⟩
  have upperPlace : upper.exponent = exponent ∧
      upper.significand ≤ (floor index exponent).significand + 1 := ⟨rfl, le_refl _⟩
  clear_value lower upper
  cases low : readsBack index lower <;> cases high : readsBack index upper <;>
    simp only [low, high, reduceCtorEq, Option.some.injEq] at found
  · rw [← found]
    exact ⟨high, upperPlace⟩
  · rw [← found]
    exact ⟨low, lowerPlace⟩
  · rw [← found]
    split
    · exact ⟨low, lowerPlace⟩
    · exact ⟨high, upperPlace⟩

theorem shortest_outcome (index : Nat) :
    index = 0 ∧ shortest index = ⟨0, 0⟩ ∨ shortest index = exact index ∨
      ∃ places < 17, onGrid? index (decade index - 1 - (places : Nat)) = some (shortest index) := by
  rw [shortest]
  split
  · exact .inl ⟨‹_›, rfl⟩
  · cases found : (List.range 17).findSome?
      fun (places : Nat) => onGrid? index (decade index - 1 - places) with
    | none => exact .inr (.inl rfl)
    | some d =>
        obtain ⟨places, inside, grid⟩ := List.exists_of_findSome?_eq_some found
        exact .inr (.inr ⟨places, List.mem_range.mp inside, grid⟩)

theorem shortest_reads_back (index : Nat) (inside : index ≤ finiteCount) :
    readsBack index (shortest index) = true := by
  rcases shortest_outcome index with ⟨rfl, zero⟩ | exact | ⟨places, _, grid⟩
  · rw [zero]
    exact zero_reads_back
  · rw [exact]
    exact exact_reads_back index inside
  · exact (on_grid_outcome index _ _ grid).1

theorem of_shortest (index : Fin finiteCount) (negative : Bool) (d : Decimal)
    (same : d.value = (shortest index.val).value) : ofDecimal negative d = .finite negative index := by
  have back := shortest_reads_back index.val index.isLt.le
  rw [readsBack, beq_iff_eq] at back
  rw [ofDecimal, ofRatio, index_of_value d _ same, back, ofIndex, dif_pos index.isLt]

end Aggregation.Decimal
