import Aggregation.Word

set_option autoImplicit false

namespace Aggregation

namespace Binary64

def binade : Nat := 1 <<< 52

-- How many finite magnitudes there are; the index of infinity.
def finiteCount : Nat := 2047 * binade

-- Binary places of the unit, which is the least positive magnitude.
def unitPlaces : Nat := 1074

def unitsInOne : Nat := 1 <<< unitPlaces

end Binary64

-- A finite double is a sign and the index of its magnitude among all finite magnitudes in ascending order. All the bit
-- patterns that are no number are one value.
inductive Binary64 where
  | nan
  | infinity (negative : Bool)
  | finite (negative : Bool) (index : Fin Binary64.finiteCount)
deriving DecidableEq

namespace Binary64

def ofIndex (negative : Bool) (index : Nat) : Binary64 :=
  if inside : index < finiteCount then .finite negative ⟨index, inside⟩ else .infinity negative

def ofBits (bits : UInt64) : Binary64 :=
  let negative := 1 <<< 63 ≤ bits.toNat
  let index := bits.toNat % (1 <<< 63)
  if index ≤ finiteCount then ofIndex negative index else .nan

-- The 64 bits of a double; no number is written as the quiet pattern with a clear sign.
def toBits : Binary64 → UInt64
  | .nan => UInt64.ofNat (finiteCount + binade / 2)
  | .infinity negative => UInt64.ofNat (finiteCount + (negative.toNat <<< 63))
  | .finite negative index => UInt64.ofNat (index.val + (negative.toNat <<< 63))

-- The magnitude at an index, in units. The first binade is evenly spaced from zero on; each later
-- one starts with twice the spacing of the one before it.
def units (index : Nat) : Nat :=
  if index / binade = 0 then index else (binade + index % binade) <<< (index / binade - 1)

-- The place of a number among all numbers, in units; infinity stands where the next binade would
-- begin.
def place? : Binary64 → Option Int
  | .nan => none
  | .infinity negative => some (signed negative (units finiteCount))
  | .finite negative index => some (signed negative (units index.val))

def compareNumbers? (left right : Binary64) : Option Ordering :=
  match left.place?, right.place? with
  | some x, some y => some (Ord.compare x y)
  | _, _ => none

def atMost (left right : Binary64) : Bool :=
  match left.compareNumbers? right with
  | some order => order != .gt
  | none => false

def compare (left right : Binary64) : Ordering :=
  match left.place?, right.place? with
  | some x, some y => Ord.compare x y
  | some _, none => .lt
  | none, some _ => .gt
  | none, none => .eq

def signedZero (negative : Bool) : Binary64 := .finite negative ⟨0, by decide⟩

def zero : Binary64 := signedZero false

def isZero : Binary64 → Bool
  | .finite _ index => index.val == 0
  | _ => false

instance : Zero Binary64 := ⟨zero⟩

end Binary64

end Aggregation
