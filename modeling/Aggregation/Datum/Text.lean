import Aggregation.Datum.Error
import Aggregation.Decimal.Layout

set_option autoImplicit false

namespace Aggregation

-- Doubles keep a point, and stand without an exponent from a thousandth up to ten million.
def Layout.plain : Layout where
  positional exponent := -3 ≤ exponent && exponent < 7
  keepsPoint := true
  infinity := "Infinity"

def Datum.toText : Datum → String
  | .null => "NULL"
  | .boolean true => "TRUE"
  | .boolean false => "FALSE"
  | .integer n => toString n.toInt
  | .double x => Layout.plain.render x
  | .text s => s

end Aggregation
