import Aggregation.Binary64.Rounding

set_option autoImplicit false

namespace Aggregation.Binary64

def neg : Binary64 → Binary64
  | .nan => .nan
  | .infinity negative => .infinity (!negative)
  | .finite negative index => .finite (!negative) index

-- A sum of finite doubles that is zero takes the sign that both share, and is positive when they
-- differ.
def add : Binary64 → Binary64 → Binary64
  | .nan, _ => .nan
  | _, .nan => .nan
  | .infinity a, .infinity b => if a = b then .infinity a else .nan
  | .infinity a, .finite _ _ => .infinity a
  | .finite _ _, .infinity b => .infinity b
  | .finite a i, .finite b j =>
      let total := signed a (units i.val) + signed b (units j.val)
      if total = 0 then signedZero (a && b) else ofUnits (total < 0) total.natAbs 1

def sub (left right : Binary64) : Binary64 :=
  add left right.neg

def mul : Binary64 → Binary64 → Binary64
  | .nan, _ => .nan
  | _, .nan => .nan
  | .infinity a, .infinity b => .infinity (a != b)
  | .infinity a, .finite b j => if j.val = 0 then .nan else .infinity (a != b)
  | .finite a i, .infinity b => if i.val = 0 then .nan else .infinity (a != b)
  | .finite a i, .finite b j => ofUnits (a != b) (units i.val * units j.val) unitsInOne

def div : Binary64 → Binary64 → Binary64
  | .nan, _ => .nan
  | _, .nan => .nan
  | .infinity _, .infinity _ => .nan
  | .infinity a, .finite b _ => .infinity (a != b)
  | .finite a _, .infinity b => signedZero (a != b)
  | .finite a i, .finite b j =>
      if j.val = 0 then (if i.val = 0 then .nan else .infinity (a != b))
      else ofRatio (a != b) (units i.val) (units j.val)

def sqrt : Binary64 → Binary64
  | .nan => .nan
  | .infinity negative => if negative then .nan else .infinity false
  | .finite negative index =>
      if index.val = 0 then .finite negative index
      else if negative then .nan
      else
        let square := 4 * units index.val * unitsInOne
        ofIndex false (nearestIndex fun half => Ord.compare (half * half) square)

instance : Neg Binary64 := ⟨neg⟩
instance : Add Binary64 := ⟨add⟩
instance : Sub Binary64 := ⟨sub⟩
instance : Mul Binary64 := ⟨mul⟩
instance : Div Binary64 := ⟨div⟩

def one : Binary64 := ofNat 1

instance : One Binary64 := ⟨one⟩

end Aggregation.Binary64
