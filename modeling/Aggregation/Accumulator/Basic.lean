import Aggregation.Aggregate
import Aggregation.Bisection
import Aggregation.Datum.Arithmetic
import Aggregation.Datum.Conversion
import Aggregation.Datum.Order
import Aggregation.Moments

set_option autoImplicit false

namespace Aggregation

structure Accumulator where
  aggregate : Aggregate
  dataType : DataType
  count : Nat
  running : Option Datum
  moments : Moments Binary64
  product : Binary64
  reciprocals : Binary64
  held : Array Datum
deriving DecidableEq

namespace Accumulator

def empty (aggregate : Aggregate) (dataType : DataType) : Accumulator where
  aggregate := aggregate
  dataType := dataType
  count := 0
  running := none
  moments := ⟨.zero, .zero⟩
  product := .zero
  reciprocals := .zero
  held := #[]

def sumWith (seed : DataType) (row : Datum) : Option Datum → Except DatumError Datum
  | none => row.convert seed
  | some total => (row.convert (total.type?.getD seed)).bind total.add

def selectWith (wanted : Ordering) (row : Datum) : Option Datum → Except DatumError Datum
  | none => .ok row
  | some best => (row.compare best).map fun order => if order = wanted then row else best

def booleanWith (combine : Bool → Bool → Bool) (row : Datum) : Option Datum → Except DatumError Datum
  | none => row.convert .boolean
  | some running =>
      (row.convert .boolean).bind fun incoming =>
        running.toBoolean.bind fun a =>
          incoming.toBoolean.map fun b => .boolean (combine a b)

def bitsWith (dataType : DataType) (combine : Int64 → Int64 → Int64) (row : Datum) :
    Option Datum → Except DatumError Datum
  | none => row.convert dataType
  | some running =>
      running.toInteger.bind fun a =>
        row.toInteger.bind fun b => (Datum.integer (combine a b)).convert dataType

def fold (acc : Accumulator) (row : Datum) : Except DatumError Accumulator :=
  let count := acc.count + 1
  let keep (running : Datum) : Accumulator := { acc with count := count, running := some running }
  match acc.aggregate with
  | .sum => (sumWith acc.dataType row acc.running).map keep
  | .average => (sumWith acc.dataType.averaging row acc.running).map keep
  | .minimum => (selectWith .lt row acc.running).map keep
  | .maximum => (selectWith .gt row acc.running).map keep
  | .boolAnd => (booleanWith (· && ·) row acc.running).map keep
  | .boolOr => (booleanWith (· || ·) row acc.running).map keep
  | .bitAnd => (bitsWith acc.dataType (· &&& ·) row acc.running).map keep
  | .bitOr => (bitsWith acc.dataType (· ||| ·) row acc.running).map keep
  | .populationDeviation | .sampleDeviation | .populationVariance | .sampleVariance
  | .confidence _ =>
      row.toDouble.map fun x =>
        { acc with count := count, moments := acc.moments.push .ofNat count x }
  | .geometricMean =>
      row.toDouble.map fun x =>
        { acc with count := count, product := if count = 1 then x else acc.product * x }
  | .harmonicMean =>
      row.toDouble.map fun x =>
        let reciprocal := .one / x
        let sum := if count = 1 then reciprocal else acc.reciprocals + reciprocal
        { acc with count := count, reciprocals := sum }

def foldAll (acc : Accumulator) : List Datum → Except DatumError Unit × Accumulator
  | [] => (.ok (), acc)
  | row :: rows =>
      match acc.fold row with
      | .error failure => (.error failure, acc)
      | .ok next => next.foldAll rows

-- Puts a row among held rows in ascending order; it takes the place of an equal one.
def hold (rows : Array Datum) (row : Datum) : Except DatumError (Array Datum) :=
  (search (·.compare row) rows).map fun
    | .hit index => rows.setIfInBounds index row
    | .gap index => rows.insertIdxIfInBounds index row

def add (acc : Accumulator) (row : Datum) (distinct : Bool) : Except DatumError Unit × Accumulator :=
  if row.isNull then (.ok (), acc)
  else
    let next :=
      if distinct then (hold acc.held row).map fun held => { acc with held := held }
      else acc.fold row
    match next with
    | .ok next => (.ok (), next)
    | .error failure => (.error failure, acc)

-- Folds the held rows. Counting starts again at zero, and none is held afterwards.
def release (acc : Accumulator) : Except DatumError Unit × Accumulator :=
  foldAll { acc with count := 0, held := #[] } acc.held.toList

end Accumulator

end Aggregation
