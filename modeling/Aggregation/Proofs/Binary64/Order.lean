import Mathlib
import Aggregation.Proofs.Binary64.Units

set_option autoImplicit false

namespace Aggregation

-- Where a number stands: the rationals, the infinities around them, and the place above that is
-- left for no number.
abbrev Standing : Type := WithTop (WithBot (WithTop ℚ))

namespace Standing

def ofRat (q : ℚ) : Standing := ((q : WithTop ℚ) : WithBot (WithTop ℚ))

def infinite (negative : Bool) : Standing :=
  if negative then ((⊥ : WithBot (WithTop ℚ)) : Standing)
  else (((⊤ : WithTop ℚ) : WithBot (WithTop ℚ)) : Standing)

theorem of_rat_strict_mono : StrictMono ofRat := fun _ _ less =>
  WithTop.coe_lt_coe.mpr (WithBot.coe_lt_coe.mpr (WithTop.coe_lt_coe.mpr less))

theorem infinite_lt_rat (q : ℚ) : infinite true < ofRat q :=
  WithTop.coe_lt_coe.mpr (WithBot.bot_lt_coe _)

theorem rat_lt_infinite (q : ℚ) : ofRat q < infinite false :=
  WithTop.coe_lt_coe.mpr (WithBot.coe_lt_coe.mpr (WithTop.coe_lt_top q))

end Standing

namespace Binary64

-- The value of a finite double as the interchange format gives it: above the fraction stand the
-- bits of the exponent, and at the lowest exponent no one leads the fraction.
def value (negative : Bool) (index : Nat) : ℚ :=
  let exponent : ℕ := index / 2 ^ 52
  let fraction : ℚ := (index % 2 ^ 52 : ℕ)
  (if negative then -1 else 1) *
    if exponent = 0 then fraction * 2 ^ (-1074 : ℤ)
    else (2 ^ 52 + fraction) * 2 ^ ((exponent : ℤ) - 1075)

def standing : Binary64 → Standing
  | .nan => ⊤
  | .infinity negative => .infinite negative
  | .finite negative index => .ofRat (value negative index.val)

theorem signed_cast (negative : Bool) (magnitude : Nat) :
    (signed negative magnitude : ℚ) = (if negative then -1 else 1) * magnitude := by
  cases negative <;> simp

theorem units_in_one_cast : (unitsInOne : ℚ) = 2 ^ unitPlaces := by
  rw [unitsInOne, Nat.one_shiftLeft, Nat.cast_pow, Nat.cast_ofNat]

theorem unit_rat_pos : (0 : ℚ) < unitsInOne :=
  Nat.cast_pos.mpr units_in_one_pos

theorem value_eq_units (negative : Bool) (index : Nat) :
    value negative index = (signed negative (units index) : ℚ) / unitsInOne := by
  have whole : binade = 2 ^ 52 := by decide
  have split := units_split (index / binade) (index % binade) (Nat.mod_lt _ binade_pos)
  rw [Nat.div_add_mod, whole] at split
  rw [signed_cast, mul_div_assoc, value, split, units_in_one_cast]
  congr 1
  cases index / 2 ^ 52 with
  | zero =>
      have lowest : (-1074 : ℤ) = -(unitPlaces : Nat) := rfl
      rw [if_pos rfl, if_pos rfl, lowest, zpow_neg, zpow_natCast, div_eq_mul_inv]
  | succ lap =>
      have shift : ((lap + 1 : Nat) : ℤ) - 1075 = (lap : ℤ) - (unitPlaces : Nat) := by
        rw [unitPlaces]
        push_cast
        ring
      rw [if_neg (Nat.succ_ne_zero lap), if_neg (Nat.succ_ne_zero lap), shift,
        zpow_sub₀ two_ne_zero, zpow_natCast, zpow_natCast, Nat.add_sub_cancel]
      simp only [Nat.cast_mul, Nat.cast_add, Nat.cast_pow, Nat.cast_ofNat, mul_div_assoc]

end Binary64

def Standing.ofPlace (place : Int) : Standing :=
  if place ≤ -(Binary64.units Binary64.finiteCount) then infinite true
  else if (Binary64.units Binary64.finiteCount : Int) ≤ place then infinite false
  else ofRat (place / Binary64.unitsInOne)

namespace Binary64

def places : Set Int := Set.Icc (-(units finiteCount)) (units finiteCount)

theorem unit_strict_mono : StrictMono fun place : Int => (place / unitsInOne : ℚ) := fun _ _ less =>
  (div_lt_div_iff_of_pos_right unit_rat_pos).mpr (Int.cast_lt.mpr less)

theorem of_place_strict_mono : StrictMonoOn Standing.ofPlace places := by
  intro p pIn q qIn less
  obtain ⟨pLow, pHigh⟩ := pIn
  obtain ⟨qLow, qHigh⟩ := qIn
  rw [Standing.ofPlace, Standing.ofPlace, if_neg (show ¬ q ≤ _ by omega),
    if_neg (show ¬ _ ≤ p by omega)]
  by_cases low : p ≤ -(units finiteCount)
  · rw [if_pos low]
    split
    · exact (Standing.infinite_lt_rat 0).trans (Standing.rat_lt_infinite 0)
    · exact Standing.infinite_lt_rat _
  · rw [if_neg low]
    split
    · exact Standing.rat_lt_infinite _
    · exact Standing.of_rat_strict_mono (unit_strict_mono less)

theorem of_place_inside (place : Int) (low : -(units finiteCount : Int) < place)
    (high : place < units finiteCount) : Standing.ofPlace place = .ofRat (place / unitsInOne) := by
  rw [Standing.ofPlace, if_neg (by omega), if_neg (by omega)]

theorem signed_units_inside (negative : Bool) (index : Nat) (inside : index < finiteCount) :
    -(units finiteCount : Int) < signed negative (units index) ∧
      signed negative (units index) < units finiteCount := by
  have less := units_strict_mono inside
  cases negative <;> simp only [signed_true, signed_false] <;> omega

theorem place_standing (x : Binary64) (place : Int) (found : x.place? = some place) :
    place ∈ places ∧ x.standing = .ofPlace place := by
  cases x with
  | nan => cases found
  | infinity negative =>
      cases found
      have positive : 0 < units finiteCount := by
        simpa only [units_zero] using units_strict_mono (show 0 < finiteCount by decide)
      cases negative with
      | false =>
          rw [signed_false]
          refine ⟨⟨by omega, le_refl _⟩, ?_⟩
          rw [standing, Standing.ofPlace, if_neg (by omega), if_pos (le_refl _)]
      | true =>
          rw [signed_true]
          refine ⟨⟨le_refl _, by omega⟩, ?_⟩
          rw [standing, Standing.ofPlace, if_pos (le_refl _)]
  | finite negative index =>
      cases found
      obtain ⟨low, high⟩ := signed_units_inside negative index.val index.isLt
      exact ⟨⟨low.le, high.le⟩, by rw [standing, of_place_inside _ low high, value_eq_units]⟩

theorem no_number_standing (x : Binary64) (placeless : x.place? = none) : x.standing = ⊤ := by
  cases x with
  | nan => rfl
  | infinity negative => cases placeless
  | finite negative index => cases placeless

theorem finite_of_standing (x : Binary64) (q : ℚ) (same : x.standing = .ofRat q) :
    ∃ negative index, x = .finite negative index ∧ q = value negative index.val := by
  cases x with
  | nan => cases same
  | infinity negative =>
      cases negative with
      | true => exact absurd same (Standing.infinite_lt_rat _).ne
      | false => exact absurd same (Standing.rat_lt_infinite _).ne'
  | finite negative index =>
      exact ⟨negative, index, rfl, (Standing.of_rat_strict_mono.injective same).symm⟩

theorem is_zero_standing (x : Binary64) (zero : x.isZero = true) : x.standing = .ofRat (0 : Int) := by
  cases x with
  | nan => cases zero
  | infinity negative => cases zero
  | finite negative index =>
      rw [isZero, beq_iff_eq] at zero
      rw [standing, value_eq_units, zero, units_zero]
      cases negative <;> simp

theorem number_lt_nan (x : Binary64) (place : Int) (found : x.place? = some place) :
    x.standing < ⊤ := by
  rw [(place_standing x place found).2, Standing.ofPlace]
  split
  · exact WithTop.coe_lt_top _
  · split <;> exact WithTop.coe_lt_top _

theorem compare_places (x y : Binary64) (p q : Int) (left : x.place? = some p)
    (right : y.place? = some q) : cmp x.standing y.standing = Ord.compare p q := by
  obtain ⟨pIn, pStanding⟩ := place_standing x p left
  obtain ⟨qIn, qStanding⟩ := place_standing y q right
  rw [pStanding, qStanding, of_place_strict_mono.cmp_map_eq pIn qIn, cmp_eq_compare]

theorem place_of_number (x : Binary64) (number : x ≠ .nan) : ∃ place, x.place? = some place := by
  cases x with
  | nan => exact absurd rfl number
  | infinity negative => exact ⟨_, rfl⟩
  | finite negative index => exact ⟨_, rfl⟩

theorem at_most_iff (x y : Binary64) (number : y ≠ .nan) : x.atMost y = true ↔ x.standing ≤ y.standing := by
  obtain ⟨q, right⟩ := place_of_number y number
  rw [atMost, compareNumbers?, right]
  cases left : x.place? with
  | none =>
      rw [no_number_standing x left]
      exact ⟨Bool.noConfusion, fun le => absurd le (number_lt_nan y q right).not_ge⟩
  | some p =>
      simp only [← compare_places x y p q left right]
      rcases lt_trichotomy x.standing y.standing with less | same | more
      · simp [(cmp_eq_lt_iff _ _).mpr less, less.le]
      · simp [same]
      · simp [(cmp_eq_gt_iff _ _).mpr more, more.not_ge]

theorem compare_eq_standing (x y : Binary64) : x.compare y = cmp x.standing y.standing := by
  rw [compare]
  split
  next p q left right => exact (compare_places x y p q left right).symm
  next p left right =>
    rw [no_number_standing y right]
    exact ((cmp_eq_lt_iff _ _).mpr (number_lt_nan x p left)).symm
  next q left right =>
    rw [no_number_standing x left]
    exact ((cmp_eq_gt_iff _ _).mpr (number_lt_nan y q right)).symm
  next left right => rw [no_number_standing x left, no_number_standing y right, cmp_self_eq_eq]

end Binary64

end Aggregation
