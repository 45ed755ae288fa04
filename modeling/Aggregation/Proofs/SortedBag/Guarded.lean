import Mathlib
import Aggregation.SortedBag.Request

set_option autoImplicit false

namespace Aggregation

inductive Fault where
  | outside
  | negative
  | overflow
deriving DecidableEq

abbrev Guarded (α : Type) := Except Fault α

namespace Guarded

section Primitives

variable {α : Type}

def itemAt (items : Array α) (index : Nat) : Guarded α :=
  match items[index]? with
  | some item => .ok item
  | none => .error .outside

def insertAt (items : Array α) (index : Nat) (item : α) : Guarded (Array α) :=
  if index ≤ items.size then .ok (items.insertIdxIfInBounds index item) else .error .outside

def eraseAt (items : Array α) (index : Nat) : Guarded (Array α) :=
  if index < items.size then .ok (items.eraseIdxIfInBounds index) else .error .outside

def plus (m n : Nat) : Guarded Nat :=
  if m + n < 2 ^ 64 then .ok (m + n) else .error .overflow

def minus (m n : Nat) : Guarded Nat :=
  if n ≤ m then .ok (m - n) else .error .negative

end Primitives

def countOf (bag : SortedBag) (value : Datum) : Guarded Nat :=
  match bag.locate value with
  | .ok (.hit index) => (itemAt bag.entries index).map (·.count)
  | _ => .ok 0

def put (bag : SortedBag) (value : Datum) : Guarded (Bool × SortedBag) :=
  match bag.locate value with
  | .ok (.hit index) => do
      let entry ← itemAt bag.entries index
      let count ← plus entry.count 1
      let size ← plus bag.size 1
      return (true, ⟨size, bag.entries.setIfInBounds index ⟨entry.value, count⟩, bag.phase⟩)
  | .ok (.gap index) => do
      let entries ← insertAt bag.entries index ⟨value, 1⟩
      let size ← plus bag.size 1
      return (true, ⟨size, entries, bag.phase⟩)
  | .error _ => .ok (false, bag)

def dropAt (entries : Array Entry) (index : Nat) : Guarded (Array Entry) := do
  let entry ← itemAt entries index
  if 1 < entry.count then
    let count ← minus entry.count 1
    return entries.setIfInBounds index ⟨entry.value, count⟩
  else eraseAt entries index

def take (bag : SortedBag) (value : Datum) : Guarded (Bool × SortedBag) :=
  if bag.size = 0 then .ok (false, bag)
  else match bag.locate value with
    | .ok (.hit index) => do
        let entries ← dropAt bag.entries index
        let size ← minus bag.size 1
        return (true, ⟨size, entries, bag.phase⟩)
    | _ => .ok (false, bag)

def withEach (act : SortedBag → Datum → Guarded (Bool × SortedBag)) (bag : SortedBag) :
    List Datum → Guarded (Bool × SortedBag)
  | [] => .ok (true, bag)
  | value :: values => do
      let done ← act bag value
      let others ← withEach act done.2 values
      return (done.1 && others.1, others.2)

def change (bag : SortedBag) (changed : Guarded (Bool × SortedBag)) :
    Guarded (Except BagError Bool × SortedBag) :=
  if bag.isFrozen then .ok (.error .frozen, bag)
  else changed.map fun done => (.ok done.1, done.2)

def runEnds (start : Nat) : List Nat → Guarded (List Nat)
  | [] => .ok []
  | length :: lengths => do
      let stop ← plus start length
      let later ← runEnds stop lengths
      return stop :: later

def freeze (bag : SortedBag) : Guarded (Except BagError Unit × SortedBag) :=
  if bag.isFrozen then .ok (.error .frozenTwice, bag)
  else
    let lengths := bag.entries.toList.map (·.count)
    (runEnds 0 lengths).map fun ends =>
      (.ok (), { bag with phase := .frozen ⟨ends.toArray, RunTable.firstLongest none 0 0 lengths⟩ })

def read (bag : SortedBag) (reading : RunTable → Guarded (Except BagError Datum)) :
    Guarded (Except BagError Datum) :=
  match bag.table with
  | .error failure => .ok (.error failure)
  | .ok table => reading table

def entryValue (bag : SortedBag) (index : Nat) : Guarded (Except BagError Datum) :=
  (itemAt bag.entries index).map fun entry => .ok entry.value

def get (bag : SortedBag) (index : Nat) : Guarded (Except BagError Datum) :=
  read bag fun table =>
    match table.owner? index with
    | none => .ok (.error (.outOfRange index bag.size))
    | some run => entryValue bag run

def mode (bag : SortedBag) : Guarded (Except BagError Datum) :=
  read bag fun table =>
    match table.mode with
    | none => .ok (.ok .null)
    | some run => entryValue bag run

def median (bag : SortedBag) : Guarded (Except BagError Datum) :=
  read bag fun _ =>
    if bag.size = 0 then .ok (.ok .null)
    else do
      let last ← minus bag.size 1
      get bag (last / 2)

-- Only the subtraction from the size is guarded; the other one stops at zero.
def percentile (bag : SortedBag) (fraction : Binary64) : Guarded (Except BagError Datum) :=
  read bag fun _ =>
    if Binary64.zero.atMost fraction && fraction.atMost .one then
      if bag.size = 0 then .ok (.ok .null)
      else do
        let last ← minus bag.size 1
        get bag (min ((fraction * .ofNat bag.size).ceilingCount - 1) last)
    else .ok (.error (.fractionOutOfRange fraction))

def next (cursor : Cursor) : Guarded (Option Datum × Cursor) := do
  match ← get cursor.bag cursor.position with
  | .ok value =>
      let position ← plus cursor.position 1
      return (some value, { cursor with position := position, last := some value })
  | .error _ => return (none, cursor)

def yieldUpTo (cursor : Cursor) : Nat → Guarded (List Datum × Cursor)
  | 0 => .ok ([], cursor)
  | number + 1 => do
      match ← next cursor with
      | (none, after) => return ([], after)
      | (some value, after) =>
          let others ← yieldUpTo after number
          return (value :: others.1, others.2)

def removeLast (cursor : Cursor) : Guarded (Except BagError Bool × Cursor) :=
  match cursor.last with
  | none => .ok (.error .nothingYielded, cursor)
  | some value =>
      (change cursor.bag (take cursor.bag value)).map fun removed =>
        (removed.1, { cursor with bag := removed.2 })

def call (cursor : Cursor) : Cursor.Call → Guarded (Except BagError Cursor.Reply × Cursor)
  | .next => (next cursor).map fun done => (.ok (.item done.1), done.2)
  | .remaining => .ok (.ok (.number cursor.remaining), cursor)
  | .rest => (yieldUpTo cursor cursor.remaining).map fun done => (.ok (.items done.1), done.2)
  | .remove => (removeLast cursor).map fun done => (done.1.map .flag, done.2)

def callEach (cursor : Cursor) : List Cursor.Call → Guarded (List (Except BagError Cursor.Reply) × Cursor)
  | [] => .ok ([], cursor)
  | first :: calls => do
      let done ← call cursor first
      let others ← callEach done.2 calls
      return (done.1 :: others.1, others.2)

def flagged (changed : Guarded (Except BagError Bool × SortedBag)) :
    Guarded (Except BagError SortedBag.Reply × SortedBag) :=
  changed.map fun done => (done.1.map .flag, done.2)

def valued (bag : SortedBag) (answer : Guarded (Except BagError Datum)) :
    Guarded (Except BagError SortedBag.Reply × SortedBag) :=
  answer.map fun answer => (answer.map .value, bag)

def perform (bag : SortedBag) :
    SortedBag.Request → Guarded (Except BagError SortedBag.Reply × SortedBag)
  | .add value => flagged (change bag (put bag value))
  | .remove value => flagged (change bag (take bag value))
  | .addAll values => flagged (change bag (withEach put bag values))
  | .removeAll values => flagged (change bag (withEach take bag values))
  | .retainAll _ => .ok (.error (.unsupported "retain_all"), bag)
  | .toArray => .ok (.error (.unsupported "to_array"), bag)
  | .contains value => .ok (.ok (.flag (bag.contains value)), bag)
  | .containsAll values => .ok (.ok (.flag (bag.containsAll values)), bag)
  | .countOf value => (countOf bag value).map fun count => (.ok (.number count), bag)
  | .entries => .ok (.ok (.entries bag.entries.toList), bag)
  | .clear => .ok (.ok .done, .empty)
  | .freeze => (freeze bag).map fun done => (done.1.map fun _ => .done, done.2)
  | .get index => valued bag (get bag index)
  | .mode => valued bag (mode bag)
  | .median => valued bag (median bag)
  | .percentile fraction => valued bag (percentile bag fraction)
  | .cursor calls =>
      match bag.cursor with
      | .error failure => .ok (.error failure, bag)
      | .ok cursor => (callEach cursor calls).map fun done => (.ok (.calls done.1), done.2.bag)

def run (bag : SortedBag) :
    List SortedBag.Request → Guarded (List (Except BagError SortedBag.Reply × SortedBag))
  | [] => .ok []
  | request :: requests => do
      let served ← perform bag request
      let others ← run served.2 requests
      return served :: others

end Guarded

end Aggregation
