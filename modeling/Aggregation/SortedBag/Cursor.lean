import Aggregation.SortedBag.Position

set_option autoImplicit false

namespace Aggregation

structure Cursor where
  bag : SortedBag
  position : Nat
  last : Option Datum
deriving DecidableEq

def SortedBag.cursor (bag : SortedBag) : Except BagError Cursor :=
  bag.table.map fun _ => ⟨bag, 0, none⟩

namespace Cursor

def remaining (cursor : Cursor) : Nat :=
  cursor.bag.size - cursor.position

def next (cursor : Cursor) : Option Datum × Cursor :=
  match cursor.bag.get cursor.position with
  | .ok value => (some value, { cursor with position := cursor.position + 1, last := some value })
  | .error _ => (none, cursor)

def yieldUpTo (cursor : Cursor) : Nat → List Datum × Cursor
  | 0 => ([], cursor)
  | number + 1 =>
      match cursor.next with
      | (none, after) => ([], after)
      | (some value, after) =>
          let others := after.yieldUpTo number
          (value :: others.1, others.2)

def rest (cursor : Cursor) : List Datum × Cursor :=
  cursor.yieldUpTo cursor.remaining

-- Removes the value yielded last from the bag, which the bag refuses as it is frozen.
def remove (cursor : Cursor) : Except BagError Bool × Cursor :=
  match cursor.last with
  | none => (.error .nothingYielded, cursor)
  | some value =>
      let removed := cursor.bag.remove value
      (removed.1, { cursor with bag := removed.2 })

inductive Call where
  | next
  | remaining
  | rest
  | remove
deriving DecidableEq

inductive Reply where
  | item (value : Option Datum)
  | number (count : Nat)
  | items (values : List Datum)
  | flag (done : Bool)
deriving DecidableEq

def perform (cursor : Cursor) : Call → Except BagError Reply × Cursor
  | .next => (.ok (.item cursor.next.1), cursor.next.2)
  | .remaining => (.ok (.number cursor.remaining), cursor)
  | .rest => (.ok (.items cursor.rest.1), cursor.rest.2)
  | .remove => (cursor.remove.1.map .flag, cursor.remove.2)

def run (cursor : Cursor) : List Call → List (Except BagError Reply) × Cursor
  | [] => ([], cursor)
  | call :: calls =>
      let done := cursor.perform call
      let others := done.2.run calls
      (done.1 :: others.1, others.2)

end Cursor

end Aggregation
