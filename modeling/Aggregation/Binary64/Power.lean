import Aggregation.Binary64.Arithmetic

set_option autoImplicit false

namespace Aggregation

/-- Powers of doubles come from the platform, and no standard fixes their last bits: what is proved of an
accumulator holds for any such function. -/
class PowerFunction where
  power : Binary64 → Binary64 → Binary64

namespace Binary64

-- Fractional bits of a logarithm in fixed point, and of the significands that yield it.
def logBits : Nat := 160

-- Appends bits of the logarithm of a significand in `[1, 2)`: its square passes two exactly when
-- the next bit is set.
def logFraction : Nat → Nat → Nat → Nat
  | 0, _, bits => bits
  | steps + 1, significand, bits =>
      let square := (significand * significand) >>> logBits
      if square >>> (logBits + 1) = 0 then logFraction steps square (2 * bits)
      else logFraction steps (square >>> 1) (2 * bits + 1)

def log (n : Nat) : Nat :=
  logFraction logBits ((n <<< logBits) >>> n.log2) n.log2

-- The index of the magnitude nearest to a power of a positive number, its base and its exponent
-- given in units, the exponent at most one.
def indexOfPower (base exponent : Nat) : Nat :=
  let target : Int := ((log base : Int) - (unitPlaces <<< logBits : Nat)) * exponent
  nearestIndex fun half =>
    Ord.compare (((log half : Int) - ((unitPlaces + 1) <<< logBits : Nat)) * unitsInOne) target

/-- A power function to run with. It rounds to nearest where the exponent is positive and at most one, as the
inverse of a count is. -/
def nearestPower (base exponent : Binary64) : Binary64 :=
  if exponent = one then base
  else match base, exponent with
    | .nan, _ => .nan
    | .infinity _, _ => .infinity false
    | .finite negative index, .finite _ share =>
        if index.val = 0 then zero
        else if negative then .nan
        else ofIndex false (indexOfPower (units index.val) (units share.val))
    | .finite _ _, _ => .nan

instance nearestPowers : PowerFunction := ⟨nearestPower⟩

end Binary64

end Aggregation
