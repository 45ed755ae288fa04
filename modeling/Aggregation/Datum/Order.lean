import Aggregation.Binary64.Integral
import Aggregation.Datum.Error

set_option autoImplicit false

namespace Aggregation

namespace Datum

-- The order of an integer and a double, when the double nearest to the integer has been compared:
-- where the two are equal the double is whole, and the integers decide.
def settle (n : Int64) (x : Binary64) : Option Ordering → Ordering
  | none => .lt
  | some .eq => Ord.compare n.toInt x.truncated
  | some order => order

def compareMixed (n : Int64) (x : Binary64) : Ordering :=
  settle n x ((Binary64.ofInt n.toInt).compareNumbers? x)

def compare (left right : Datum) : Except DatumError Ordering :=
  match left, right with
  | .null, .null => .ok .eq
  | .null, _ => .ok .lt
  | _, .null => .ok .gt
  | .boolean a, .boolean b => .ok (Ord.compare a b)
  | .integer a, .integer b => .ok (Ord.compare a.toInt b.toInt)
  | .double x, .double y => .ok (x.compare y)
  | .integer n, .double x => .ok (compareMixed n x)
  | .double x, .integer n => .ok (compareMixed n x).swap
  | .text s, .text t => .ok (Ord.compare s t)
  | _, _ => .error (.incomparable left.type? right.type?)

end Datum

end Aggregation
