import Aggregation.Decimal.Basic

set_option autoImplicit false

namespace Aggregation.Decimal

-- The exponent `e` for which a positive magnitude lies in `[10^(e-1), 10^e)`. Shifting by 400
-- places keeps a leading digit of the least magnitude before the point.
def decade (index : Nat) : Int :=
  (Nat.toDigits 10 ((Binary64.units index * Nat.pow 10 400) / Binary64.unitsInOne)).length - 400

def floor (index : Nat) (exponent : Int) : Decimal :=
  let scaled := Binary64.units index * Nat.pow 10 (-exponent).toNat
  ⟨scaled / (Nat.pow 10 exponent.toNat * Binary64.unitsInOne), exponent⟩

def readsBack (index : Nat) (d : Decimal) : Bool :=
  Binary64.indexOfRatio d.numerator d.denominator == index

def isNearer (index : Nat) (d : Decimal) : Bool :=
  let middle : Decimal := ⟨2 * d.significand + 1, d.exponent⟩
  2 * Binary64.units index * middle.denominator < middle.numerator * Binary64.unitsInOne

-- The point with this exponent that reads back as the magnitude at an index: of two such points the
-- nearer one, and the upper one when both are as near.
def onGrid? (index : Nat) (exponent : Int) : Option Decimal :=
  let lower := floor index exponent
  let upper : Decimal := ⟨lower.significand + 1, exponent⟩
  match readsBack index lower, readsBack index upper with
  | true, true => some (if isNearer index lower then lower else upper)
  | true, false => some lower
  | false, true => some upper
  | false, false => none

def exact (index : Nat) : Decimal :=
  ⟨Binary64.units index * Nat.pow 5 Binary64.unitPlaces, -Binary64.unitPlaces⟩

def shortest (index : Nat) : Decimal :=
  if index = 0 then ⟨0, 0⟩
  else ((List.range 17).findSome? fun (places : Nat) => onGrid? index (decade index - 1 - places)).getD
    (exact index)

end Aggregation.Decimal
