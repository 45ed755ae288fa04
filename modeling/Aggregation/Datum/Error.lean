import Aggregation.Datum.Basic

set_option autoImplicit false

namespace Aggregation

inductive Operator where
  | plus
  | slash
deriving DecidableEq

def Operator.symbol : Operator → String
  | .plus => "+"
  | .slash => "/"

inductive DatumError where
  | incomparable (left right : Option DataType)
  | notConvertible (shown : String) (target : DataType)
  | unsupportedOperands (operator : Operator) (left right : Option DataType)
  | overflow
  | divisionByZero
deriving DecidableEq

namespace DatumError

def typeName : Option DataType → String
  | none => "NULL"
  | some type => type.name

def message : DatumError → String
  | .incomparable left right => s!"cannot compare {typeName left} with {typeName right}"
  | .notConvertible shown target => s!"cannot convert {shown} to {target.name}"
  | .unsupportedOperands operator left right =>
      s!"unsupported operands for `{operator.symbol}`: {typeName left} and {typeName right}"
  | .overflow => "numeric overflow"
  | .divisionByZero => "division by zero"

end DatumError

end Aggregation
