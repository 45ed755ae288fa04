import Aggregation.SortedBag.Basic

set_option autoImplicit false

namespace Aggregation.SortedBag

def table (bag : SortedBag) : Except BagError RunTable :=
  match bag.phase with
  | .collecting => .error .notFrozen
  | .frozen table => .ok table

def get (bag : SortedBag) (index : Nat) : Except BagError Datum :=
  bag.table.bind fun table =>
    match (table.owner? index).bind (bag.entries[·]?) with
    | some entry => .ok entry.value
    | none => .error (.outOfRange index bag.size)

def mode (bag : SortedBag) : Except BagError Datum :=
  bag.table.map fun table =>
    (table.mode.bind (bag.entries[·]?)).elim .null (·.value)

def median (bag : SortedBag) : Except BagError Datum :=
  bag.table.bind fun _ => if bag.size = 0 then .ok .null else bag.get ((bag.size - 1) / 2)

def percentilePosition (size : Nat) (fraction : Binary64) : Nat :=
  min ((fraction * .ofNat size).ceilingCount - 1) (size - 1)

def percentile (bag : SortedBag) (fraction : Binary64) : Except BagError Datum :=
  bag.table.bind fun _ =>
    if Binary64.zero.atMost fraction && fraction.atMost .one then
      if bag.size = 0 then .ok .null else bag.get (percentilePosition bag.size fraction)
    else .error (.fractionOutOfRange fraction)

end Aggregation.SortedBag
