import Aggregation.Binary64.Arithmetic

set_option autoImplicit false

namespace Aggregation

inductive DataType where
  | boolean
  | integer
  | double
  | text
deriving DecidableEq

namespace DataType

def name : DataType → String
  | .boolean => "BOOLEAN"
  | .integer => "INTEGER"
  | .double => "DOUBLE"
  | .text => "TEXT"

def width : DataType → Nat
  | .boolean => 0
  | .integer => 1
  | .double => 2
  | .text => 3

def wider (left right : DataType) : DataType :=
  if left.width ≤ right.width then right else left

-- The type in which rows of a type are summed for their average: doubles, which do not overflow.
def averaging : DataType → DataType
  | .boolean => .double
  | .integer => .double
  | .double => .double
  | .text => .double

end DataType

inductive Datum where
  | null
  | boolean (value : Bool)
  | integer (value : Int64)
  | double (value : Binary64)
  | text (value : String)
deriving DecidableEq

namespace Datum

def type? : Datum → Option DataType
  | .null => none
  | .boolean _ => some .boolean
  | .integer _ => some .integer
  | .double _ => some .double
  | .text _ => some .text

def isNull : Datum → Bool
  | .null => true
  | _ => false

def number? : Datum → Option Binary64
  | .integer n => some (.ofInt n.toInt)
  | .double x => some x
  | _ => none

def text? : Datum → Option String
  | .text s => some s
  | _ => none

-- Equality as values of one type: both zeros are equal, and so are doubles that are no number.
def equals : Datum → Datum → Bool
  | .null, .null => true
  | .boolean a, .boolean b => a == b
  | .integer a, .integer b => a == b
  | .double x, .double y => x.compare y == .eq
  | .text s, .text t => s == t
  | _, _ => false

end Datum

end Aggregation
