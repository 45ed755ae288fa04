import Aggregation.SortedBag.Cursor

set_option autoImplicit false

namespace Aggregation.SortedBag

inductive Request where
  | add (value : Datum)
  | remove (value : Datum)
  | addAll (values : List Datum)
  | removeAll (values : List Datum)
  | retainAll (values : List Datum)
  | toArray
  | contains (value : Datum)
  | containsAll (values : List Datum)
  | countOf (value : Datum)
  | entries
  | clear
  | freeze
  | get (index : Nat)
  | mode
  | median
  | percentile (fraction : Binary64)
  | cursor (calls : List Cursor.Call)
deriving DecidableEq

inductive Reply where
  | done
  | flag (answer : Bool)
  | number (count : Nat)
  | entries (entries : List Entry)
  | value (datum : Datum)
  | calls (answers : List (Except BagError Cursor.Reply))

-- Serves a request. The values of a bag are read by position or by a cursor, so there is no array
-- of them, and none of them are kept by choosing.
def perform (bag : SortedBag) : Request → Except BagError Reply × SortedBag
  | .add value => ((bag.add value).1.map .flag, (bag.add value).2)
  | .remove value => ((bag.remove value).1.map .flag, (bag.remove value).2)
  | .addAll values => ((bag.addAll values).1.map .flag, (bag.addAll values).2)
  | .removeAll values => ((bag.removeAll values).1.map .flag, (bag.removeAll values).2)
  | .retainAll _ => (.error (.unsupported "retain_all"), bag)
  | .toArray => (.error (.unsupported "to_array"), bag)
  | .contains value => (.ok (.flag (bag.contains value)), bag)
  | .containsAll values => (.ok (.flag (bag.containsAll values)), bag)
  | .countOf value => (.ok (.number (bag.countOf value)), bag)
  | .entries => (.ok (.entries bag.entries.toList), bag)
  | .clear => (.ok .done, .empty)
  | .freeze => (bag.freeze.1.map fun _ => .done, bag.freeze.2)
  | .get index => ((bag.get index).map .value, bag)
  | .mode => (bag.mode.map .value, bag)
  | .median => (bag.median.map .value, bag)
  | .percentile fraction => ((bag.percentile fraction).map .value, bag)
  | .cursor calls =>
      match bag.cursor with
      | .error failure => (.error failure, bag)
      | .ok cursor => (.ok (.calls (cursor.run calls).1), (cursor.run calls).2.bag)

def run (bag : SortedBag) : List Request → List (Except BagError Reply × SortedBag)
  | [] => []
  | request :: requests =>
      let served := bag.perform request
      served :: served.2.run requests

end Aggregation.SortedBag
