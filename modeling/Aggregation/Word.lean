set_option autoImplicit false

namespace Aggregation

def signed (negative : Bool) (magnitude : Nat) : Int :=
  if negative then -(magnitude : Int) else magnitude

@[simp]
theorem signed_false (magnitude : Nat) : signed false magnitude = magnitude := rfl

@[simp]
theorem signed_true (magnitude : Nat) : signed true magnitude = -(magnitude : Int) := rfl

theorem neg_signed (negative : Bool) (magnitude : Nat) :
    -signed negative magnitude = signed (!negative) magnitude := by
  cases negative <;> simp

theorem signed_mul (negative : Bool) (magnitude scale : Nat) :
    signed negative (magnitude * scale) = signed negative magnitude * scale := by
  cases negative with
  | false => rw [signed_false, signed_false, Int.natCast_mul]
  | true => rw [signed_true, signed_true, Int.natCast_mul, Int.neg_mul]

theorem nat_abs_signed (negative : Bool) (magnitude : Nat) :
    (signed negative magnitude).natAbs = magnitude := by
  cases negative <;> simp

theorem signed_nat_abs (n : Int) : signed (n < 0) n.natAbs = n := by
  by_cases negative : n < 0 <;> simp only [negative, decide_true, decide_false, signed_true,
    signed_false] <;> omega

namespace Word

def least : Int := -(1 <<< 63)

def greatest : Int := (1 <<< 63) - 1

def ofInt? (n : Int) : Option Int64 :=
  if least ≤ n ∧ n ≤ greatest then some (Int64.ofInt n) else none

theorem of_int_inside (n : Int) (low : least ≤ n) (high : n ≤ greatest) :
    ∃ word, ofInt? n = some word ∧ word.toInt = n := by
  refine ⟨Int64.ofInt n, if_pos ⟨low, high⟩, ?_⟩
  rw [least] at low
  rw [greatest] at high
  apply Int64.toInt_ofInt_of_le <;> omega

theorem of_int_outside (n : Int) (outside : n < least ∨ greatest < n) : ofInt? n = none :=
  if_neg fun inside => by omega

theorem of_int_word (n : Int64) : ofInt? n.toInt = some n := by
  have low := n.le_toInt
  have high := n.toInt_lt
  have inside : least ≤ n.toInt ∧ n.toInt ≤ greatest := by
    rw [least, greatest]
    omega
  rw [ofInt?, if_pos inside, Int64.ofInt_toInt]

def clamp (n : Int) : Int64 :=
  Int64.ofInt (max least (min greatest n))

end Word

end Aggregation
