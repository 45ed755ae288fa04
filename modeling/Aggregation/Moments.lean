import Aggregation.Binary64.Arithmetic
import Aggregation.Binary64.Integral
import Aggregation.Decimal.Basic

set_option autoImplicit false

namespace Aggregation

structure Moments (α : Type) where
  mean : α
  squares : α
deriving DecidableEq

namespace Moments

variable {α : Type}

-- `x` is the number at place `count`, from one on.
def push [Zero α] [Add α] [Sub α] [Mul α] [Div α] (ofCount : Nat → α) (moments : Moments α)
    (count : Nat) (x : α) : Moments α :=
  if count = 1 then ⟨x, 0⟩
  else
    let deviation := x - moments.mean
    let mean := moments.mean + deviation / ofCount count
    ⟨mean, moments.squares + deviation * (x - mean)⟩

def populationVariance [Div α] (moments : Moments α) (count : α) : α :=
  moments.squares / count

def sampleVariance [One α] [Sub α] [Div α] (moments : Moments α) (count : α) : α :=
  moments.squares / (count - 1)

end Moments

-- The thousandths are kept in a word, which they do not leave: no number counts as none of them.
def Binary64.toThousandths (x : Binary64) : Binary64 :=
  ofInt (x * ofNat 1000 + ofDecimal false ⟨5, -1⟩).floorWord.toInt / ofNat 1000

def Moments.interval (moments : Moments Binary64) (count score : Binary64) : Binary64 × Binary64 :=
  let margin := score * ((moments.sampleVariance count).sqrt / count.sqrt)
  ((moments.mean - margin).toThousandths, (moments.mean + margin).toThousandths)

end Aggregation
