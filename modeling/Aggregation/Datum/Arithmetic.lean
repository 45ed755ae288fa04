import Aggregation.Datum.Error
import Aggregation.Word

set_option autoImplicit false

namespace Aggregation.Datum

def ofExact (n : Int) : Except DatumError Datum :=
  match Word.ofInt? n with
  | some word => .ok (.integer word)
  | none => .error .overflow

def add (left right : Datum) : Except DatumError Datum :=
  match left, right with
  | .null, _ => .ok .null
  | _, .null => .ok .null
  | .integer a, .integer b => ofExact (a.toInt + b.toInt)
  | left, right =>
      match left.number?, right.number? with
      | some x, some y => .ok (.double (x + y))
      | _, _ => .error (.unsupportedOperands .plus left.type? right.type?)

-- A quotient of integers is cut off toward zero; no quotient has a zero below it.
def divide (left right : Datum) : Except DatumError Datum :=
  match left, right with
  | .null, _ => .ok .null
  | _, .null => .ok .null
  | .integer a, .integer b =>
      if b = 0 then .error .divisionByZero else ofExact (a.toInt.tdiv b.toInt)
  | left, right =>
      match left.number?, right.number? with
      | some x, some y => if y.isZero then .error .divisionByZero else .ok (.double (x / y))
      | _, _ => .error (.unsupportedOperands .slash left.type? right.type?)

end Aggregation.Datum
