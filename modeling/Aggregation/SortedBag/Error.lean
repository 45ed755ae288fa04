import Aggregation.Decimal.Layout

set_option autoImplicit false

namespace Aggregation

-- Doubles without an exponent, and without a point behind a whole number.
def Layout.bare : Layout where
  positional _ := true
  keepsPoint := false
  infinity := "inf"

inductive BagError where
  | frozen
  | frozenTwice
  | notFrozen
  | nothingYielded
  | outOfRange (index size : Nat)
  | unsupported (operation : String)
  | fractionOutOfRange (fraction : Binary64)
deriving DecidableEq

def BagError.message : BagError → String
  | .frozen => "invalid state: modifying a finalized collection is not permitted"
  | .frozenTwice =>
      "invalid state: duplicate finalization attempt; collection has already been finalized"
  | .notFrozen =>
      "invalid state: cannot read extrapolated values before extrapolation has completed"
  | .nothingYielded => "invalid state: cursor has not yielded a value to remove"
  | .outOfRange index size => s!"index {index} does not occur in this collection (len {size})"
  | .unsupported operation => s!"unsupported operation: {operation}"
  | .fractionOutOfRange fraction =>
      "invalid argument: percentile fraction must be within [0, 1], got " ++
        Layout.bare.render fraction

end Aggregation
