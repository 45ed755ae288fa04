import Aggregation.Binary64.Rounding

set_option autoImplicit false

namespace Aggregation

structure Decimal where
  significand : Nat
  exponent : Int
deriving DecidableEq

namespace Decimal

def numerator (d : Decimal) : Nat :=
  d.significand * Nat.pow 10 d.exponent.toNat

def denominator (d : Decimal) : Nat :=
  Nat.pow 10 (-d.exponent).toNat

def figures (d : Decimal) : List Char :=
  ((Nat.toDigits 10 d.significand).reverse.dropWhile (· == '0')).reverse

-- How many digits stand before the point; negative when zeros follow the point first.
def point (d : Decimal) : Int :=
  (Nat.toDigits 10 d.significand).length + d.exponent

end Decimal

def Binary64.ofDecimal (negative : Bool) (d : Decimal) : Binary64 :=
  ofRatio negative d.numerator d.denominator

end Aggregation
