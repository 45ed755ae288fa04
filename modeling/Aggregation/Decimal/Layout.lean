import Aggregation.Decimal.Shortest

set_option autoImplicit false

namespace Aggregation

structure Layout where
  positional : Int → Bool
  keepsPoint : Bool
  infinity : String

namespace Layout

def whole (d : Decimal) : List Char :=
  if d.point ≤ 0 then ['0']
  else d.figures.take d.point.toNat ++ List.replicate (d.point.toNat - d.figures.length) '0'

def fraction (d : Decimal) : List Char :=
  if d.point ≤ 0 then List.replicate (-d.point).toNat '0' ++ d.figures
  else d.figures.drop d.point.toNat

def withoutExponent (layout : Layout) (d : Decimal) : List Char :=
  match fraction d with
  | [] => whole d ++ if layout.keepsPoint then ['.', '0'] else []
  | places => whole d ++ '.' :: places

def withExponent (d : Decimal) : List Char :=
  let places := d.figures.drop 1
  d.figures.take 1 ++ '.' :: (if places.isEmpty then ['0'] else places)
    ++ 'E' :: (toString (d.point - 1)).toList

def magnitude (layout : Layout) (d : Decimal) : List Char :=
  if layout.positional (d.point - 1) then layout.withoutExponent d else withExponent d

def render (layout : Layout) : Binary64 → String
  | .nan => "NaN"
  | .infinity negative => (if negative then "-" else "") ++ layout.infinity
  | .finite negative index =>
      String.ofList ((if negative then ['-'] else []) ++ layout.magnitude (.shortest index.val))

end Layout

end Aggregation
