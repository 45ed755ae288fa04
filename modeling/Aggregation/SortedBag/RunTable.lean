import Aggregation.Bisection

set_option autoImplicit false

namespace Aggregation

structure RunTable where
  -- Where each run ends, its last position excluded.
  ends : Array Nat
  mode : Option Nat
deriving DecidableEq

namespace RunTable

def runEnds (start : Nat) : List Nat → List Nat
  | [] => []
  | length :: lengths => (start + length) :: runEnds (start + length) lengths

-- The first index of the greatest length, or `chosen` when no length is above `longest`.
def firstLongest (chosen : Option Nat) (longest index : Nat) : List Nat → Option Nat
  | [] => chosen
  | length :: lengths =>
      if longest < length then firstLongest (some index) length (index + 1) lengths
      else firstLongest chosen longest (index + 1) lengths

def ofLengths (lengths : List Nat) : RunTable :=
  ⟨(runEnds 0 lengths).toArray, firstLongest none 0 0 lengths⟩

def size (table : RunTable) : Nat :=
  table.ends.back?.getD 0

-- The run that owns a position: the runs before it are those that end at or before it.
def owner? (table : RunTable) (position : Nat) : Option Nat :=
  if position < table.size then
    some (partitionPoint (fun run => (table.ends[run]?).any (· ≤ position)) table.ends.size)
  else none

end RunTable

end Aggregation
