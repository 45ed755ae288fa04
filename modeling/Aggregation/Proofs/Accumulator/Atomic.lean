import Mathlib
import Aggregation.Proofs.Accumulator.Distinct

set_option autoImplicit false

namespace Aggregation

-- A change of an accumulator in place; a failure leaves what was assigned before it.
abbrev Update := EStateM DatumError Accumulator

namespace Update

variable {α : Type}

def attempt (answer : Except DatumError α) : Update α := fun acc =>
  match answer with
  | .ok a => .ok a acc
  | .error failure => .error failure acc

def setRunning (running : Datum) : Update Unit :=
  modify fun acc => { acc with running := some running }

def setMean (mean : Binary64) : Update Unit :=
  modify fun acc => { acc with moments := { acc.moments with mean := mean } }

def setSquares (squares : Binary64) : Update Unit :=
  modify fun acc => { acc with moments := { acc.moments with squares := squares } }

def keepIf (wanted : Ordering) (row : Datum) : Update Unit := do
  match (← get).running with
  | none => setRunning row
  | some best =>
      let order ← attempt (row.compare best)
      if order = wanted then setRunning row

-- The mean is assigned before the squared deviations, which read the new one.
def pushMoments (count : Nat) (x : Binary64) : Update Unit := do
  if count = 1 then
    setMean x
    setSquares 0
  else
    let deviation := x - (← get).moments.mean
    setMean ((← get).moments.mean + deviation / .ofNat count)
    setSquares ((← get).moments.squares + deviation * (x - (← get).moments.mean))

def assignRow (row : Datum) (count : Nat) : Update Unit := do
  let acc ← get
  match acc.aggregate with
  | .sum => setRunning (← attempt (Accumulator.sumWith acc.dataType row acc.running))
  | .average => setRunning (← attempt (Accumulator.sumWith acc.dataType.averaging row acc.running))
  | .minimum => keepIf .lt row
  | .maximum => keepIf .gt row
  | .boolAnd => setRunning (← attempt (Accumulator.booleanWith (· && ·) row acc.running))
  | .boolOr => setRunning (← attempt (Accumulator.booleanWith (· || ·) row acc.running))
  | .bitAnd => setRunning (← attempt (Accumulator.bitsWith acc.dataType (· &&& ·) row acc.running))
  | .bitOr => setRunning (← attempt (Accumulator.bitsWith acc.dataType (· ||| ·) row acc.running))
  | .populationDeviation | .sampleDeviation | .populationVariance | .sampleVariance
  | .confidence _ => pushMoments count (← attempt row.toDouble)
  | .geometricMean =>
      let x ← attempt row.toDouble
      modify fun acc => { acc with product := if count = 1 then x else acc.product * x }
  | .harmonicMean =>
      let x ← attempt row.toDouble
      modify fun acc => { acc with
        reciprocals := if count = 1 then .one / x else acc.reciprocals + .one / x }

def fold (row : Datum) : Update Unit := do
  let count := (← get).count + 1
  assignRow row count
  modify fun acc => { acc with count := count }

def hold (row : Datum) : Update Unit := do
  match ← attempt (search (·.compare row) (← get).held) with
  | .hit index => modify fun acc => { acc with held := acc.held.setIfInBounds index row }
  | .gap index => modify fun acc => { acc with held := acc.held.insertIdxIfInBounds index row }

def add (row : Datum) (distinct : Bool) : Update Unit :=
  if row.isNull then pure () else if distinct then hold row else fold row

def whole (before : Accumulator) :
    Except DatumError Accumulator → EStateM.Result DatumError Accumulator Unit
  | .ok after => .ok () after
  | .error failure => .error failure before

section Assign

variable (acc : Accumulator) (row : Datum) (count : Nat)

def uncounted (acc : Accumulator) (answer : Except DatumError Accumulator) :
    Except DatumError Accumulator :=
  answer.map fun next => { next with count := acc.count }

theorem set_running_whole (answer : Except DatumError Datum) :
    (attempt answer >>= setRunning) acc =
      whole acc (uncounted acc (answer.map fun running =>
        { acc with count := count, running := some running })) := by
  cases answer <;> rfl

theorem replace_eq (best : Datum) (running : acc.running = some best) (replaces : Prop)
    [Decidable replaces] :
    (if replaces then setRunning row else pure ()) acc =
      .ok () { acc with running := some (if replaces then row else best) } := by
  by_cases yes : replaces
  · rw [if_pos yes, if_pos yes]
    rfl
  · rw [if_neg yes, if_neg yes, ← running]
    rfl

theorem keep_if_whole (wanted : Ordering) :
    keepIf wanted row acc =
      whole acc (uncounted acc ((Accumulator.selectWith wanted row acc.running).map fun running =>
        { acc with count := count, running := some running })) := by
  obtain ⟨aggregate, dataType, size, running, moments, product, reciprocals, held⟩ := acc
  cases running with
  | none => rfl
  | some best =>
      change (attempt (row.compare best) >>= fun order =>
        if order = wanted then setRunning row else pure ()) _ = _
      rw [Accumulator.selectWith]
      cases row.compare best with
      | error failure => rfl
      | ok order => exact replace_eq _ row best rfl (order = wanted)

theorem push_moments_eq (x : Binary64) :
    pushMoments count x acc =
      .ok () { acc with moments := acc.moments.push .ofNat count x } := by
  rw [pushMoments, Moments.push]
  by_cases first : count = 1
  · rw [if_pos first, if_pos first]
    rfl
  · rw [if_neg first, if_neg first]
    rfl

theorem attempt_double_whole (assign : Binary64 → Update Unit) (next : Binary64 → Accumulator)
    (assigned : ∀ x, assign x acc = .ok () { next x with count := acc.count }) :
    (attempt row.toDouble >>= assign) acc = whole acc (uncounted acc (row.toDouble.map next)) := by
  cases row.toDouble with
  | error failure => rfl
  | ok x => exact assigned x

theorem assign_row_whole :
    assignRow row (acc.count + 1) acc = whole acc (uncounted acc (acc.fold row)) := by
  obtain ⟨aggregate, dataType, count, running, moments, product, reciprocals, held⟩ := acc
  cases aggregate with
  | sum => exact set_running_whole _ _ (Accumulator.sumWith dataType row running)
  | average => exact set_running_whole _ _ (Accumulator.sumWith dataType.averaging row running)
  | minimum => exact keep_if_whole _ row _ .lt
  | maximum => exact keep_if_whole _ row _ .gt
  | boolAnd => exact set_running_whole _ _ (Accumulator.booleanWith (· && ·) row running)
  | boolOr => exact set_running_whole _ _ (Accumulator.booleanWith (· || ·) row running)
  | bitAnd => exact set_running_whole _ _ (Accumulator.bitsWith dataType (· &&& ·) row running)
  | bitOr => exact set_running_whole _ _ (Accumulator.bitsWith dataType (· ||| ·) row running)
  | populationDeviation | sampleDeviation | populationVariance | sampleVariance =>
      exact attempt_double_whole _ row _ _ fun x => push_moments_eq _ _ x
  | confidence level => exact attempt_double_whole _ row _ _ fun x => push_moments_eq _ _ x
  | geometricMean => exact attempt_double_whole _ row _ _ fun x => rfl
  | harmonicMean => exact attempt_double_whole _ row _ _ fun x => rfl

theorem fold_whole : fold row acc = whole acc (acc.fold row) := by
  have assigned := assign_row_whole acc row
  cases folded : acc.fold row with
  | error failure =>
      rw [folded] at assigned
      change EStateM.bind (assignRow row (acc.count + 1)) _ acc = _
      rw [EStateM.bind, assigned]
      rfl
  | ok next =>
      obtain ⟨_, count⟩ := Accumulator.fold_frame acc next row folded
      rw [folded] at assigned
      change EStateM.bind (assignRow row (acc.count + 1)) _ acc = _
      rw [EStateM.bind, assigned]
      change EStateM.Result.ok () { next with count := acc.count + 1 } = _
      rw [← count]
      rfl

theorem hold_whole :
    hold row acc = whole acc ((Accumulator.hold acc.held row).map fun held => { acc with held := held }) := by
  change EStateM.bind (attempt (search (·.compare row) acc.held)) _ acc = _
  rw [Accumulator.hold]
  cases search (·.compare row) acc.held with
  | error failure => rfl
  | ok slot =>
      cases slot with
      | hit index => rfl
      | gap index => rfl

theorem add_whole (distinct : Bool) :
    (add row distinct).run acc = match acc.add row distinct with
      | (.ok (), after) => .ok () after
      | (.error failure, after) => .error failure after := by
  rw [add, Accumulator.add, EStateM.run]
  by_cases null : row.isNull = true
  · rw [if_pos null, if_pos null]
    rfl
  · rw [if_neg null, if_neg null]
    cases distinct with
    | true =>
        rw [if_pos rfl, if_pos rfl, hold_whole]
        cases Accumulator.hold acc.held row <;> rfl
    | false =>
        rw [if_neg Bool.false_ne_true, if_neg Bool.false_ne_true, fold_whole]
        cases acc.fold row <;> rfl

end Assign

end Update

namespace Accumulator

def idle : Step → Except DatumError Reply → Bool
  | .add _ _, .error _ => true
  | .finish _ false, _ => true
  | _, _ => false

def effective [PowerFunction] (acc : Accumulator) (steps : List Step) :
    List (Step × (Except DatumError Reply × Accumulator)) :=
  (steps.zip (acc.run steps)).filter fun done => !idle done.1 done.2.1

theorem idle_perform [PowerFunction] (acc : Accumulator) (step : Step)
    (still : idle step (acc.perform step).1 = true) : (acc.perform step).2 = acc := by
  cases step with
  | add row distinct =>
      cases answer : (acc.add row distinct).1 with
      | error failure => exact add_failed acc row distinct failure answer
      | ok done => simp [perform, answer, Except.map, idle] at still
  | finish target distinct =>
      cases distinct with
      | false => rfl
      | true => simp [idle] at still

theorem run_effective [PowerFunction] (acc : Accumulator) (steps : List Step) :
    acc.run ((acc.effective steps).map Prod.fst) = (acc.effective steps).map Prod.snd := by
  induction steps generalizing acc with
  | nil => rfl
  | cons step steps ih =>
      have rest := ih (acc.perform step).2
      rw [effective] at rest ⊢
      rw [run, List.zip_cons_cons]
      cases still : idle step (acc.perform step).1 with
      | true =>
          rw [List.filter_cons_of_neg (by simp [still])]
          rwa [idle_perform acc step still] at rest ⊢
      | false =>
          rw [List.filter_cons_of_pos (by simp [still]), List.map_cons, List.map_cons, run, rest]

/-- Adding a row in place is adding it whole or not at all. So a run without its failing rows and plain finishes has
the same answers, and the same states after them. -/
theorem add_atomic [PowerFunction] (acc : Accumulator) :
    (∀ row distinct, (Update.add row distinct).run acc = match acc.add row distinct with
        | (.ok (), after) => .ok () after
        | (.error failure, after) => .error failure after) ∧
      (∀ row distinct failure, (acc.add row distinct).1 = .error failure →
        (acc.add row distinct).2 = acc) ∧
      (∀ distinct, acc.add .null distinct = (.ok (), acc)) ∧
      (∀ target, (acc.finish target false).2 = acc) ∧
      ∀ steps, acc.run ((acc.effective steps).map Prod.fst) = (acc.effective steps).map Prod.snd :=
  ⟨fun row distinct => Update.add_whole acc row distinct, add_failed acc, fun _ => rfl, fun _ => rfl,
    run_effective acc⟩

end Accumulator

end Aggregation
