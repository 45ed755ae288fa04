import Mathlib
import Aggregation.Binary64.Arithmetic
import Aggregation.Proofs.Binary64.Order
import Aggregation.Proofs.Binary64.Rounding

set_option autoImplicit false

namespace Aggregation

def Standing.rounded (q : ℚ) : Standing :=
  (Binary64.ofRatio (q.num < 0) q.num.natAbs q.den).standing

namespace Binary64

open Standing

theorem standing_le (x y : Binary64) (p q : Int) (left : x.place? = some p) (right : y.place? = some q)
    (le : p ≤ q) : x.standing ≤ y.standing := by
  obtain ⟨pIn, pStanding⟩ := place_standing x p left
  obtain ⟨qIn, qStanding⟩ := place_standing y q right
  rw [pStanding, qStanding]
  exact of_place_strict_mono.monotoneOn pIn qIn le

theorem index_of_units_none (den : Nat) (positive : 0 < den) : indexOfUnits 0 den = 0 := by
  have exact_none := index_of_units_exact den 0 positive (Nat.zero_le _)
  rwa [units_zero, Nat.zero_mul] at exact_none

theorem of_units_mono (negative other : Bool) (m d n e : Nat) (dPos : 0 < d) (ePos : 0 < e)
    (le : signed negative m * e ≤ signed other n * d) :
    (ofUnits negative m d).standing ≤ (ofUnits other n e).standing := by
  have left := place_of_index negative _ (index_of_units_bound m d dPos)
  have right := place_of_index other _ (index_of_units_bound n e ePos)
  apply standing_le _ _ _ _ left right
  rw [← signed_mul, ← signed_mul] at le
  cases negative with
  | false =>
      cases other with
      | false =>
          rw [signed_false, signed_false, Int.ofNat_le] at le ⊢
          exact units_strict_mono.monotone (index_of_units_mono m d n e dPos ePos le)
      | true =>
          rw [signed_false, signed_true] at le
          have flat : m * e = 0 := by omega
          have other : n * d = 0 := by omega
          rw [(Nat.mul_eq_zero.mp flat).resolve_right ePos.ne', index_of_units_none d dPos,
            (Nat.mul_eq_zero.mp other).resolve_right dPos.ne', index_of_units_none e ePos, units_zero,
            signed_false, signed_true]
          exact le_refl _
  | true =>
      cases other with
      | false =>
          rw [signed_true, signed_false]
          omega
      | true =>
          rw [signed_true, signed_true, Int.neg_le_neg_iff, Int.ofNat_le] at le ⊢
          exact units_strict_mono.monotone (index_of_units_mono n e m d ePos dPos le)

theorem of_units_same (negative other : Bool) (m d n e : Nat) (dPos : 0 < d) (ePos : 0 < e)
    (same : signed negative m * e = signed other n * d) :
    (ofUnits negative m d).standing = (ofUnits other n e).standing :=
  le_antisymm (of_units_mono negative other m d n e dPos ePos same.le)
    (of_units_mono other negative n e m d ePos dPos same.ge)

theorem rounded_mono : Monotone rounded := by
  intro p q le
  apply of_units_mono _ _ _ _ _ _ p.den_pos q.den_pos
  rw [signed_mul, signed_mul, signed_nat_abs, signed_nat_abs, mul_right_comm, mul_right_comm q.num]
  exact mul_le_mul_of_nonneg_right ((Rat.le_iff p q).mp le) (Int.natCast_nonneg _)

theorem of_units_rounded (negative : Bool) (num den : Nat) (positive : 0 < den) :
    (ofUnits negative num den).standing = rounded ((signed negative num : ℚ) / (den * unitsInOne)) := by
  have unit : (unitsInOne : ℚ) ≠ 0 := Nat.cast_ne_zero.mpr units_in_one_pos.ne'
  have count : (den : ℚ) ≠ 0 := Nat.cast_ne_zero.mpr positive.ne'
  generalize quotient : (signed negative num : ℚ) / (den * unitsInOne) = q
  have parts := q.num_div_den.trans quotient.symm
  rw [div_eq_div_iff (Nat.cast_ne_zero.mpr q.den_nz) (mul_ne_zero count unit)] at parts
  have whole : q.num * (den * unitsInOne) = signed negative num * q.den := by
    exact_mod_cast parts
  apply of_units_same _ _ _ _ _ _ positive q.den_pos
  rw [signed_mul, signed_nat_abs, ← whole, mul_right_comm, mul_assoc]

theorem rounded_exact (x : Binary64) (q : ℚ) (exact_x : x.standing = ofRat q) : rounded q = ofRat q := by
  obtain ⟨negative, index, rfl, rfl⟩ := finite_of_standing x q exact_x
  have same := of_units_rounded negative (units index * 1) 1 Nat.one_pos
  rw [ofUnits, index_of_units_exact 1 index Nat.one_pos index.isLt.le, Nat.mul_one, Nat.cast_one, one_mul,
    ← value_eq_units] at same
  rw [← same, ofIndex, dif_pos index.isLt]
  rfl

theorem signed_product (left right : Bool) (m n : Nat) :
    signed (left != right) (m * n) = signed left m * signed right n := by
  cases left <;> cases right <;> simp

theorem signed_quotient (left right : Bool) (m n : Nat) :
    (signed (left != right) m : ℚ) / n = signed left m / signed right n := by
  cases left <;> cases right <;> simp [neg_div, div_neg]

section Values

variable (a b : Bool) (i j : Nat)

theorem product_value : (signed (a != b) (units i * units j) : ℚ) / (unitsInOne * unitsInOne) =
    value a i * value b j := by
  rw [signed_product, Int.cast_mul, mul_div_mul_comm, ← value_eq_units, ← value_eq_units]

theorem quotient_value : (signed (a != b) (units i * unitsInOne) : ℚ) / (units j * unitsInOne) =
    value a i / value b j := by
  have unit : (unitsInOne : ℚ) ≠ 0 := Nat.cast_ne_zero.mpr units_in_one_pos.ne'
  rw [signed_mul, Int.cast_mul, Int.cast_natCast, mul_div_mul_right _ _ unit, signed_quotient,
    ← div_div_div_cancel_right₀ unit, ← value_eq_units, ← value_eq_units]

theorem index_of_nonzero (nonzero : value b j ≠ 0) : 0 < j := by
  apply Nat.pos_of_ne_zero
  rintro rfl
  rw [value_eq_units, units_zero] at nonzero
  cases b <;> simp at nonzero

end Values

section Operations

variable (x y : Binary64) (p q : ℚ) (left : x.standing = ofRat p) (right : y.standing = ofRat q)

include left in
theorem neg_exact : (-x).standing = ofRat (-p) := by
  obtain ⟨negative, index, rfl, rfl⟩ := finite_of_standing x p left
  change (finite (!negative) index).standing = _
  rw [standing, value_eq_units, value_eq_units, ← neg_signed, Int.cast_neg, neg_div]

include left right

theorem add_rounded : (x + y).standing = rounded (p + q) := by
  obtain ⟨a, i, rfl, rfl⟩ := finite_of_standing x p left
  obtain ⟨b, j, rfl, rfl⟩ := finite_of_standing y q right
  have sum : value a i + value b j = ((signed a (units i) + signed b (units j) : Int) : ℚ) / unitsInOne := by
    rw [value_eq_units, value_eq_units, ← add_div, Int.cast_add]
  rw [sum]
  change (if _ then _ else _ : Binary64).standing = _
  generalize signed a (units i) + signed b (units j) = total
  by_cases cancels : total = 0
  · have stands (negative : Bool) : (signedZero negative).standing = ofRat 0 := is_zero_standing _ rfl
    rw [if_pos cancels, cancels, Int.cast_zero, zero_div, stands, rounded_exact _ 0 (stands false)]
  · have same := of_units_rounded (total < 0) total.natAbs 1 Nat.one_pos
    rw [signed_nat_abs, Nat.cast_one, one_mul] at same
    rw [if_neg cancels, same]

theorem sub_rounded : (x - y).standing = rounded (p - q) := by
  rw [sub_eq_add_neg]
  exact add_rounded x (-y) p (-q) left (neg_exact y q right)

theorem mul_rounded : (x * y).standing = rounded (p * q) := by
  obtain ⟨a, i, rfl, rfl⟩ := finite_of_standing x p left
  obtain ⟨b, j, rfl, rfl⟩ := finite_of_standing y q right
  rw [← product_value]
  exact of_units_rounded (a != b) (units i * units j) unitsInOne units_in_one_pos

theorem div_rounded (nonzero : q ≠ 0) : (x / y).standing = rounded (p / q) := by
  obtain ⟨a, i, rfl, rfl⟩ := finite_of_standing x p left
  obtain ⟨b, j, rfl, rfl⟩ := finite_of_standing y q right
  have later := index_of_nonzero b j.val nonzero
  have quotient : finite a i / finite b j = ofUnits (a != b) (units i * unitsInOne) (units j) :=
    if_neg later.ne'
  rw [← quotient_value, quotient]
  exact of_units_rounded (a != b) (units i * unitsInOne) (units j) (units_pos j.val later)

end Operations

theorem of_nat_rounded (n : Nat) : (ofNat n).standing = rounded n := by
  have same := of_units_rounded false (n * unitsInOne) 1 Nat.one_pos
  have unit : (unitsInOne : ℚ) ≠ 0 := Nat.cast_ne_zero.mpr units_in_one_pos.ne'
  rwa [signed_false, Int.cast_natCast, Nat.cast_mul, Nat.cast_one, one_mul, mul_div_cancel_right₀ _ unit]
    at same

theorem standing_of_scaled (n places : Nat) (bound : n ≤ 2 ^ 53) (few : places ≤ unitPlaces) :
    ∃ x : Binary64, x.standing = .ofRat (n / 2 ^ places) := by
  obtain ⟨index, inside, found⟩ := finite_of_scaled_le (unitPlaces - places) n bound (by rw [unitPlaces]; omega)
  refine ⟨.finite false ⟨index, inside⟩, ?_⟩
  have unit : (unitsInOne : ℚ) = 2 ^ (unitPlaces - places) * 2 ^ places := by
    rw [units_in_one_cast, ← pow_add, Nat.sub_add_cancel few]
  have scale : (2 : ℚ) ^ (unitPlaces - places) ≠ 0 := pow_ne_zero _ two_ne_zero
  rw [standing, value_eq_units, found, unit, signed_false, Int.cast_natCast, Nat.cast_mul, Nat.cast_pow,
    Nat.cast_ofNat, mul_comm (n : ℚ), mul_div_mul_left _ _ scale]

theorem of_nat_standing (n : Nat) (bound : n ≤ 2 ^ 53) : (ofNat n).standing = .ofRat n := by
  obtain ⟨x, exact_x⟩ := standing_of_scaled n 0 bound (Nat.zero_le _)
  rw [pow_zero, div_one] at exact_x
  rw [of_nat_rounded, rounded_exact x n exact_x]

theorem neg_of_index (negative : Bool) (index : Nat) :
    -ofIndex negative index = ofIndex (!negative) index := by
  change neg _ = _
  by_cases inside : index < finiteCount
  · rw [ofIndex, ofIndex, dif_pos inside, dif_pos inside, neg]
  · rw [ofIndex, ofIndex, dif_neg inside, dif_neg inside, neg]

section Rounded

variable (q r : ℚ) (same : rounded q = ofRat r)

include same

theorem rounded_again : rounded r = ofRat r := rounded_exact _ r same

theorem neg_rounded : rounded (-q) = ofRat (-r) := by
  have unit : (unitsInOne : ℚ) ≠ 0 := Nat.cast_ne_zero.mpr units_in_one_pos.ne'
  have flipped := of_units_rounded (!decide (q.num < 0)) (q.num.natAbs * unitsInOne) q.den q.den_pos
  rw [signed_mul, ← neg_signed, signed_nat_abs, Int.cast_mul, Int.cast_natCast, mul_div_mul_right _ _ unit,
    Int.cast_neg, neg_div, q.num_div_den] at flipped
  rw [← flipped, ofUnits, ← neg_of_index]
  exact neg_exact _ r same

end Rounded

theorem rounded_zero : rounded 0 = ofRat 0 := rounded_exact zero 0 (is_zero_standing zero rfl)

theorem positive_form (x : Binary64) (q : ℚ) (exact_x : x.standing = ofRat q) (positive : 0 < q) :
    ∃ index, 0 < index.val ∧ x = finite false index ∧ q = units index / unitsInOne := by
  obtain ⟨negative, index, rfl, rfl⟩ := finite_of_standing x q exact_x
  have later := index_of_nonzero negative index positive.ne'
  rw [value_eq_units] at positive ⊢
  cases negative with
  | false => exact ⟨index, later, rfl, rfl⟩
  | true =>
      have low : (0 : ℚ) ≤ units index / unitsInOne := div_nonneg (Nat.cast_nonneg _) (Nat.cast_nonneg _)
      rw [signed_true, Int.cast_neg, Int.cast_natCast, neg_div] at positive
      exact absurd positive (neg_nonpos.mpr low).not_gt

-- Half of a positive double is rounded to less than all of it, at the least magnitude too, where the tie
-- goes to zero.
theorem rounded_half (q : ℚ) (positive : 0 < q) (double : rounded q = ofRat q) :
    rounded (q / 2) < ofRat q := by
  obtain ⟨⟨index, inside⟩, later, _, same⟩ := positive_form _ q double positive
  simp only at later same
  obtain ⟨before, rfl⟩ := Nat.exists_eq_succ_of_ne_zero later.ne'
  by_cases least : before = 0
  · have tied : indexOfUnits 1 2 = 0 := by decide +kernel
    have tie := of_units_rounded false 1 2 two_pos
    have half : q / 2 = (signed false 1 : ℚ) / ((2 : Nat) * unitsInOne) := by
      rw [same, least, units_one, div_div, mul_comm, signed_false]
      rfl
    rw [half, ← tie, ofUnits, tied]
    calc (ofIndex false 0).standing = ofRat 0 := is_zero_standing _ rfl
      _ < ofRat q := of_rat_strict_mono positive
  · have lower : (finite false ⟨before, by omega⟩).standing = ofRat (units before / unitsInOne) := by
      rw [standing, value_eq_units]
      rfl
    have double : (units before.succ : ℚ) ≤ units before * 2 := by
      rw [mul_comm]
      exact_mod_cast units_succ_le before (Nat.pos_of_ne_zero least)
    have half : q / 2 ≤ units before / unitsInOne := by
      rw [same, div_right_comm]
      exact div_le_div_of_nonneg_right ((div_le_iff₀ two_pos).mpr double) unit_rat_pos.le
    have less : (units before : ℚ) / unitsInOne < q := by
      rw [same, div_lt_div_iff_of_pos_right unit_rat_pos, Nat.cast_lt]
      exact units_strict_mono before.lt_succ_self
    calc rounded (q / 2) ≤ rounded (units before / unitsInOne) := rounded_mono half
      _ = ofRat (units before / unitsInOne) := rounded_exact _ _ lower
      _ < ofRat q := of_rat_strict_mono less

theorem rounded_lt_top (q : ℚ) : rounded q < ⊤ :=
  number_lt_nan _ _ (place_of_index _ _ (index_of_units_bound _ q.den q.den_pos))

theorem between_finite (x : Binary64) (p q : ℚ) (between : x.standing ∈ Set.uIcc (ofRat p) (ofRat q)) :
    ∃ r ∈ Set.uIcc p q, x.standing = ofRat r := by
  obtain ⟨low, high⟩ := between
  rw [← of_rat_strict_mono.monotone.map_inf] at low
  rw [← of_rat_strict_mono.monotone.map_sup] at high
  cases x with
  | nan => exact absurd high (WithTop.coe_lt_top _).not_ge
  | infinity negative =>
      cases negative with
      | true => exact absurd low (infinite_lt_rat _).not_ge
      | false => exact absurd high (rat_lt_infinite _).not_ge
  | finite negative index =>
      exact ⟨_, ⟨of_rat_strict_mono.le_iff_le.mp low, of_rat_strict_mono.le_iff_le.mp high⟩, rfl⟩

theorem rounded_between (x : Binary64) (p q r u v : ℚ) (stands : x.standing = rounded q)
    (left : rounded p = ofRat u) (right : rounded r = ofRat v) (between : q ∈ Set.uIcc p r) :
    ∃ s ∈ Set.uIcc u v, x.standing = ofRat s := by
  apply between_finite
  rw [stands, ← left, ← right]
  exact rounded_mono.mapsTo_uIcc between

theorem count_standing (n least : Nat) (low : least ≤ n) (small : least ≤ 2 ^ 53) (few : n < 2 ^ 64) :
    ∃ g : ℚ, least ≤ g ∧ (ofNat n).standing = ofRat g := by
  have top : (finite false ⟨1087 * binade, by decide⟩).standing = ofRat (2 ^ 64) := by
    change ofRat (value false (1087 * binade)) = _
    rw [value, show binade = 2 ^ 52 by decide]
    norm_num
  have bottom : rounded least = ofRat least := rounded_exact _ least (of_nat_standing least small)
  have between : (n : ℚ) ∈ Set.uIcc (least : ℚ) (2 ^ 64) :=
    Set.Icc_subset_uIcc ⟨by exact_mod_cast low, by exact_mod_cast few.le⟩
  obtain ⟨g, inside, exact_g⟩ :=
    rounded_between _ least n (2 ^ 64) least (2 ^ 64) (of_nat_rounded n) bottom (rounded_exact _ _ top) between
  refine ⟨g, ?_, exact_g⟩
  rw [Set.uIcc_of_le (by exact_mod_cast (low.trans few.le))] at inside
  exact inside.1

end Binary64

end Aggregation
