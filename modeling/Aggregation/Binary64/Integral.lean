import Aggregation.Binary64.Rounding
import Aggregation.Word

set_option autoImplicit false

namespace Aggregation.Binary64

-- The integer nearest to a finite double, a half away from zero.
def round? : Binary64 → Option Int
  | .finite negative index =>
      some (signed negative ((2 * units index.val + unitsInOne) / (2 * unitsInOne)))
  | _ => none

def truncated : Binary64 → Int
  | .finite negative index => signed negative (units index.val / unitsInOne)
  | _ => 0

def floorWord : Binary64 → Int64
  | .nan => 0
  | .infinity negative => Word.clamp (if negative then Word.least else Word.greatest)
  | .finite negative index => Word.clamp (signed negative (units index.val) / unitsInOne)

def greatestCount : Nat := (1 <<< 64) - 1

def ceilingCount : Binary64 → Nat
  | .nan => 0
  | .infinity negative => if negative then 0 else greatestCount
  | .finite negative index =>
      if negative then 0 else min greatestCount ((units index.val + (unitsInOne - 1)) / unitsInOne)

end Aggregation.Binary64
