import Aggregation.Bisection
import Aggregation.Binary64.Basic

set_option autoImplicit false

namespace Aggregation.Binary64

def midpoint (index : Nat) : Nat :=
  units index + units (index + 1)

-- Whether a real lies above the midpoint after an index, or on it with the even index above. The real is given by
-- `side`, which compares numbers of half units with it; every midpoint is such a number.
def passes (side : Nat → Ordering) (index : Nat) : Bool :=
  match side (midpoint index) with
  | .lt => true
  | .eq => index % 2 == 1
  | .gt => false

def nearestIndex (side : Nat → Ordering) : Nat :=
  partitionPoint (passes side) finiteCount

def indexOfUnits (num den : Nat) : Nat :=
  nearestIndex fun half => Ord.compare (half * den) (2 * num)

def indexOfRatio (num den : Nat) : Nat :=
  indexOfUnits (num * unitsInOne) den

def ofUnits (negative : Bool) (num den : Nat) : Binary64 :=
  ofIndex negative (indexOfUnits num den)

def ofRatio (negative : Bool) (num den : Nat) : Binary64 :=
  ofIndex negative (indexOfRatio num den)

def ofNat (n : Nat) : Binary64 :=
  ofRatio false n 1

def ofInt (n : Int) : Binary64 :=
  ofRatio (n < 0) n.natAbs 1

end Aggregation.Binary64
