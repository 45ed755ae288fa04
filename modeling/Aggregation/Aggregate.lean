import Aggregation.Decimal.Basic
import Aggregation.Text.Blank

set_option autoImplicit false

namespace Aggregation

-- How sure a confidence interval is of its mean, in percent: `p995` is 99.5.
inductive ConfidenceLevel where
  | p80
  | p85
  | p90
  | p95
  | p99
  | p995
  | p999
deriving DecidableEq

namespace ConfidenceLevel

def all : List ConfidenceLevel := [.p80, .p85, .p90, .p95, .p99, .p995, .p999]

def percent : ConfidenceLevel → String
  | .p80 => "80"
  | .p85 => "85"
  | .p90 => "90"
  | .p95 => "95"
  | .p99 => "99"
  | .p995 => "99_5"
  | .p999 => "99_9"

def ofPercent? (chars : List Char) : Option ConfidenceLevel :=
  all.find? fun level => level.percent.toList == chars

-- Thousandths of a standard deviation that an interval reaches to either side of its mean.
def thousandths : ConfidenceLevel → Nat
  | .p80 => 1282
  | .p85 => 1440
  | .p90 => 1645
  | .p95 => 1960
  | .p99 => 2576
  | .p995 => 2807
  | .p999 => 3291

def score (level : ConfidenceLevel) : Binary64 :=
  .ofDecimal false ⟨level.thousandths, -3⟩

end ConfidenceLevel

inductive Aggregate where
  | sum
  | average
  | minimum
  | maximum
  | boolAnd
  | boolOr
  | bitAnd
  | bitOr
  | populationDeviation
  | sampleDeviation
  | populationVariance
  | sampleVariance
  | confidence (level : ConfidenceLevel)
  | geometricMean
  | harmonicMean
deriving DecidableEq

structure UnknownAggregate where
  text : String
deriving DecidableEq

def UnknownAggregate.message (failure : UnknownAggregate) : String :=
  s!"unknown aggregate: {failure.text}"

namespace Aggregate

def all : List Aggregate :=
  [.sum, .average, .minimum, .maximum, .boolAnd, .boolOr, .bitAnd, .bitOr, .populationDeviation,
    .sampleDeviation, .populationVariance, .sampleVariance] ++ ConfidenceLevel.all.map .confidence ++
    [.geometricMean, .harmonicMean]

def name : Aggregate → String
  | .sum => "SUM"
  | .average => "AVG"
  | .minimum => "MIN"
  | .maximum => "MAX"
  | .boolAnd => "BOOL_AND"
  | .boolOr => "BOOL_OR"
  | .bitAnd => "BIT_AND"
  | .bitOr => "BIT_OR"
  | .populationDeviation => "STDDEV_POP"
  | .sampleDeviation => "STDDEV_SAMP"
  | .populationVariance => "VAR_POP"
  | .sampleVariance => "VAR_SAMP"
  | .confidence level => "CONF_INT_" ++ level.percent
  | .geometricMean => "GEOMEAN"
  | .harmonicMean => "HARMEAN"

def score? : Aggregate → Option Binary64
  | .confidence level => some level.score
  | _ => none

def named? (word : String) : Option Aggregate :=
  match word with
  | "SUM" => some .sum
  | "AVG" => some .average
  | "MIN" => some .minimum
  | "MAX" => some .maximum
  | "BOOL_AND" => some .boolAnd
  | "BOOL_OR" => some .boolOr
  | "BIT_AND" => some .bitAnd
  | "BIT_OR" => some .bitOr
  | "STDDEV_POP" => some .populationDeviation
  | "STDDEV_SAMP" => some .sampleDeviation
  | "VAR_POP" => some .populationVariance
  | "VAR_SAMP" => some .sampleVariance
  | "GEOMEAN" => some .geometricMean
  | "HARMEAN" => some .harmonicMean
  | _ => ("CONF_INT_".toList.isPrefixOf? word.toList).bind fun percent =>
      (ConfidenceLevel.ofPercent? percent).map .confidence

def parse (text : String) : Except UnknownAggregate Aggregate :=
  match named? (String.ofList ((Text.stripped text).map Char.toUpper)) with
  | some aggregate => .ok aggregate
  | none => .error ⟨text⟩

end Aggregate

end Aggregation
