import Aggregation.Binary64.Integral
import Aggregation.Datum.Text
import Aggregation.Text.Blank
import Aggregation.Text.Numeral

set_option autoImplicit false

namespace Aggregation

namespace Datum

def wordNearest (x : Binary64) : Except DatumError Int64 :=
  match x.round?.bind Word.ofInt? with
  | some n => .ok n
  | none => .error .overflow

def notConvertible {α : Type} (value : Datum) (target : DataType) : Except DatumError α :=
  .error (.notConvertible value.toText target)

def toDouble (value : Datum) : Except DatumError Binary64 :=
  match value with
  | .null => value.notConvertible .double
  | .boolean b => .ok (if b then .one else .zero)
  | .integer n => .ok (.ofInt n.toInt)
  | .double x => .ok x
  | .text s =>
      match Text.readDouble? (Text.stripped s) with
      | some x => .ok x
      | none => value.notConvertible .double

-- A text that is no whole number in range is read as a double first.
def toInteger (value : Datum) : Except DatumError Int64 :=
  match value with
  | .null => value.notConvertible .integer
  | .boolean b => .ok (if b then 1 else 0)
  | .integer n => .ok n
  | .double x => wordNearest x
  | .text s =>
      match (Text.readInteger? (Text.stripped s)).bind Word.ofInt? with
      | some n => .ok n
      | none =>
          match Text.readDouble? (Text.stripped s) with
          | some x => wordNearest x
          | none => value.notConvertible .integer

def affirmations : List String := ["TRUE", "T", "YES", "Y", "1"]

def negations : List String := ["FALSE", "F", "NO", "N", "0"]

def toBoolean (value : Datum) : Except DatumError Bool :=
  match value with
  | .null => value.notConvertible .boolean
  | .boolean b => .ok b
  | .integer n => .ok (n != 0)
  | .double x => .ok !x.isZero
  | .text s =>
      let word := String.ofList ((Text.stripped s).map Char.toUpper)
      if affirmations.contains word then .ok true
      else if negations.contains word then .ok false
      else value.notConvertible .boolean

def convert (value : Datum) (target : DataType) : Except DatumError Datum :=
  if value.type? = some target then .ok value
  else if value.isNull then .ok .null
  else match target with
    | .boolean => value.toBoolean.map .boolean
    | .integer => value.toInteger.map .integer
    | .double => value.toDouble.map .double
    | .text => .ok (.text value.toText)

end Datum

end Aggregation
