import Mathlib
import Aggregation.Proofs.Binary64.Nearest
import Aggregation.Proofs.Binary64.Sign

set_option autoImplicit false

namespace Aggregation.Binary64

open Standing

theorem signed_zero_standing (negative : Bool) : (signedZero negative).standing = ofRat 0 :=
  is_zero_standing _ rfl

theorem signed_zero_of_standing (x : Binary64) (vanishes : x.standing = ofRat 0) :
    ∃ negative, x = signedZero negative := by
  obtain ⟨negative, index, rfl, flat⟩ := finite_of_standing x 0 vanishes
  rw [value_eq_units, eq_comm, div_eq_zero_iff, Int.cast_eq_zero, ← Int.natAbs_eq_zero] at flat
  refine ⟨negative, congrArg (finite negative) (Fin.ext (units_strict_mono.injective ?_))⟩
  change units index = units 0
  rw [units_zero]
  rcases flat with magnitude | unit
  · cases negative <;> simpa [signed] using magnitude
  · exact absurd unit (Nat.cast_ne_zero.mpr units_in_one_pos.ne')

theorem zero_add_signed_zero (negative : Bool) : zero + signedZero negative = zero := by
  cases negative <;> decide +kernel

theorem signed_zero_mul (negative other : Bool) :
    signedZero negative * signedZero other = signedZero (negative != other) := by
  cases negative <;> cases other <;> decide +kernel

theorem of_index_zero (negative : Bool) : ofIndex negative 0 = signedZero negative := rfl

theorem signed_zero_div (negative : Bool) (index : Nat) (later : 0 < index) :
    signedZero negative / ofIndex false index = signedZero negative := by
  have sign : (negative != false) = negative := Bool.bne_false negative
  by_cases inside : index < finiteCount
  · have quotient : signedZero negative / finite false ⟨index, inside⟩ =
        ofRatio (negative != false) 0 (units index) := by
      change (if index = 0 then _ else ofRatio _ (units 0) _) = _
      rw [if_neg later.ne', units_zero]
    rw [ofIndex, dif_pos inside, quotient, sign, ofRatio, indexOfRatio, Nat.zero_mul,
      index_of_units_none _ (units_pos index later), of_index_zero]
  · rw [ofIndex, dif_neg inside]
    change signedZero (negative != false) = _
    rw [sign]

theorem finite_mul_zero (index : Fin finiteCount) : finite false index * zero = zero := by
  change ofUnits false (units index * units 0) unitsInOne = _
  rw [units_zero, Nat.mul_zero, ofUnits, index_of_units_none _ units_in_one_pos, of_index_zero]
  rfl

theorem sqrt_zero : zero.sqrt = zero := rfl

section Place

variable (x y : Binary64) (q : ℚ) (left : x.standing = ofRat q) (right : y.standing = ofRat q)

include left

theorem add_zero_standing (negative : Bool) : (x + signedZero negative).standing = ofRat q := by
  rw [add_rounded x _ q 0 left (signed_zero_standing negative), add_zero, rounded_exact x q left]

theorem sub_zero_standing (negative : Bool) : (x - signedZero negative).standing = ofRat q := by
  rw [sub_rounded x _ q 0 left (signed_zero_standing negative), sub_zero, rounded_exact x q left]

include right

theorem sub_same : ∃ negative, x - y = signedZero negative := by
  apply signed_zero_of_standing
  rw [sub_rounded x y q q left right, sub_self, rounded_zero]

end Place

end Aggregation.Binary64
