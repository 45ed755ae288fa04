import Aggregation.Accumulator.Basic
import Aggregation.Binary64.Power

set_option autoImplicit false

namespace Aggregation

inductive Outcome where
  | missing
  -- No row was folded into a mean or interval; read as a text of its own, whatever type is asked.
  | unfounded
  | value (datum : Datum)
deriving DecidableEq

namespace Outcome

def unfoundedText : String := "null"

def deliver (target : DataType) : Outcome → Except DatumError Datum
  | .missing => .ok .null
  | .unfounded => .ok (.text unfoundedText)
  | .value datum => datum.convert target

end Outcome

namespace Accumulator

def share (total : Datum) (count : Nat) : Except DatumError Datum :=
  let type := match total.type? with
    | some type => type.wider .integer
    | none => .integer
  match Word.ofInt? count with
  | none => .error .overflow
  | some word =>
      ((Datum.integer word).convert type).bind fun divisor =>
        (total.convert type).bind fun dividend => dividend.divide divisor

def intervalText (low high : Binary64) : String :=
  s!"({Layout.plain.render low}, {Layout.plain.render high})"

def outcome [PowerFunction] (acc : Accumulator) : Except DatumError Outcome :=
  let count := Binary64.ofNat acc.count
  let given (least : Nat) (x : Binary64) : Outcome :=
    if least ≤ acc.count then .value (.double x) else .missing
  let founded (datum : Datum) : Outcome := if acc.count = 0 then .unfounded else .value datum
  match acc.aggregate with
  | .sum | .minimum | .maximum | .boolAnd | .boolOr | .bitAnd | .bitOr =>
      .ok (acc.running.elim .missing .value)
  | .average =>
      match acc.running with
      | none => .ok .missing
      | some total => if acc.count = 0 then .ok .missing else (share total acc.count).map .value
  | .populationVariance => .ok (given 1 (acc.moments.populationVariance count))
  | .populationDeviation => .ok (given 1 (acc.moments.populationVariance count).sqrt)
  | .sampleVariance => .ok (given 2 (acc.moments.sampleVariance count))
  | .sampleDeviation => .ok (given 2 (acc.moments.sampleVariance count).sqrt)
  | .confidence level =>
      let (low, high) := acc.moments.interval count level.score
      .ok (founded (.text (intervalText low high)))
  | .geometricMean => .ok (founded (.double (PowerFunction.power acc.product (.one / count)).toThousandths))
  | .harmonicMean => .ok (founded (.double (count / acc.reciprocals).toThousandths))

def answer [PowerFunction] (acc : Accumulator) (target : DataType) : Except DatumError Datum :=
  acc.outcome.bind (·.deliver target)

def finish [PowerFunction] (acc : Accumulator) (target : DataType) (distinct : Bool) :
    Except DatumError Datum × Accumulator :=
  if distinct then
    match acc.release with
    | (.error failure, after) => (.error failure, after)
    | (.ok (), after) => (after.answer target, after)
  else (acc.answer target, acc)

inductive Step where
  | add (row : Datum) (distinct : Bool)
  | finish (target : DataType) (distinct : Bool)
deriving DecidableEq

inductive Reply where
  | added
  | result (datum : Datum)
deriving DecidableEq

def perform [PowerFunction] (acc : Accumulator) : Step → Except DatumError Reply × Accumulator
  | .add row distinct =>
      let (answer, after) := acc.add row distinct
      (answer.map fun _ => .added, after)
  | .finish target distinct =>
      let (answer, after) := acc.finish target distinct
      (answer.map .result, after)

def run [PowerFunction] (acc : Accumulator) : List Step → List (Except DatumError Reply × Accumulator)
  | [] => []
  | step :: steps =>
      let done := acc.perform step
      done :: done.2.run steps

end Accumulator

end Aggregation
