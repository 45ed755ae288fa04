import Aggregation.Datum.Order
import Aggregation.SortedBag.Error
import Aggregation.SortedBag.RunTable

set_option autoImplicit false

namespace Aggregation

structure Entry where
  value : Datum
  count : Nat
deriving DecidableEq

inductive Phase where
  | collecting
  | frozen (table : RunTable)
deriving DecidableEq

structure SortedBag where
  size : Nat
  entries : Array Entry
  phase : Phase
deriving DecidableEq

namespace SortedBag

def empty : SortedBag where
  size := 0
  entries := #[]
  phase := .collecting

def isFrozen (bag : SortedBag) : Bool :=
  match bag.phase with
  | .collecting => false
  | .frozen _ => true

def locate (bag : SortedBag) (value : Datum) : Except DatumError Slot :=
  search (·.value.compare value) bag.entries

def countOf (bag : SortedBag) (value : Datum) : Nat :=
  match bag.locate value with
  | .ok (.hit index) => (bag.entries[index]?).elim 0 (·.count)
  | _ => 0

def contains (bag : SortedBag) (value : Datum) : Bool :=
  match bag.locate value with
  | .ok (.hit _) => true
  | _ => false

def containsAll (bag : SortedBag) (values : List Datum) : Bool :=
  values.all bag.contains

-- An equal entry keeps its own value.
def put (bag : SortedBag) (value : Datum) : Bool × SortedBag :=
  match bag.locate value with
  | .ok (.hit index) =>
      let entries := bag.entries.modify index fun entry => { entry with count := entry.count + 1 }
      (true, { bag with size := bag.size + 1, entries := entries })
  | .ok (.gap index) =>
      let entries := bag.entries.insertIdxIfInBounds index ⟨value, 1⟩
      (true, { bag with size := bag.size + 1, entries := entries })
  | .error _ => (false, bag)

def take (bag : SortedBag) (value : Datum) : Bool × SortedBag :=
  match bag.locate value with
  | .ok (.hit index) =>
      let entries :=
        if (bag.entries[index]?).any (1 < ·.count) then
          bag.entries.modify index fun entry => { entry with count := entry.count - 1 }
        else bag.entries.eraseIdxIfInBounds index
      (true, { bag with size := bag.size - 1, entries := entries })
  | _ => (false, bag)

def withEach (act : SortedBag → Datum → Bool × SortedBag) (bag : SortedBag) :
    List Datum → Bool × SortedBag
  | [] => (true, bag)
  | value :: values =>
      let done := act bag value
      let others := withEach act done.2 values
      (done.1 && others.1, others.2)

def change (bag : SortedBag) (changed : Bool × SortedBag) : Except BagError Bool × SortedBag :=
  if bag.isFrozen then (.error .frozen, bag) else (.ok changed.1, changed.2)

def add (bag : SortedBag) (value : Datum) : Except BagError Bool × SortedBag :=
  bag.change (bag.put value)

def remove (bag : SortedBag) (value : Datum) : Except BagError Bool × SortedBag :=
  bag.change (bag.take value)

def addAll (bag : SortedBag) (values : List Datum) : Except BagError Bool × SortedBag :=
  bag.change (bag.withEach put values)

def removeAll (bag : SortedBag) (values : List Datum) : Except BagError Bool × SortedBag :=
  bag.change (bag.withEach take values)

-- Building the table cannot fail, so that it is taken for granted that it is built once it was begun. A worker that is
-- lost on the way, and the phase that lasts until then, are left out.
def freeze (bag : SortedBag) : Except BagError Unit × SortedBag :=
  if bag.isFrozen then (.error .frozenTwice, bag)
  else
    let table := RunTable.ofLengths (bag.entries.toList.map (·.count))
    (.ok (), { bag with phase := .frozen table })

end SortedBag

end Aggregation
