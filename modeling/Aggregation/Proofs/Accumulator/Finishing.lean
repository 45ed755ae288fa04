import Mathlib
import Aggregation.Proofs.Accumulator.Average
import Aggregation.Proofs.Accumulator.Running

set_option autoImplicit false

namespace Aggregation

theorem DatumError.mapped_failed {α β : Type} (answer : Except DatumError α) (next : α → β)
    (failure : DatumError) (failed : answer.map next = .error failure) : answer = .error failure := by
  cases answer with
  | error other => exact congrArg Except.error (Except.error.inj failed)
  | ok a => cases failed

namespace Datum

inductive Converting : DataType → DatumError → Prop where
  | unread (target : DataType) (shown : String) (readable : target ≠ .text) :
      Converting target (.notConvertible shown target)
  | overflow : Converting .integer .overflow

theorem word_nearest_failure (x : Binary64) (failure : DatumError)
    (failed : wordNearest x = .error failure) : failure = .overflow := by
  rw [wordNearest] at failed
  split at failed <;> cases failed
  rfl

section Failure

variable (a : Datum) (failure : DatumError)

theorem to_boolean_failure (failed : a.toBoolean = .error failure) : Converting .boolean failure := by
  rw [toBoolean.eq_def] at failed
  split at failed
  case h_5 s =>
    dsimp only at failed
    split at failed
    · cases failed
    · split at failed <;> cases failed
      exact .unread .boolean s DataType.noConfusion
  all_goals cases failed
  exact .unread .boolean _ DataType.noConfusion

theorem to_integer_failure (failed : a.toInteger = .error failure) : Converting .integer failure := by
  rw [toInteger.eq_def] at failed
  split at failed
  case h_4 x =>
    rw [word_nearest_failure x failure failed]
    exact .overflow
  case h_5 s =>
    split at failed
    · cases failed
    · split at failed
      · rw [word_nearest_failure _ failure failed]
        exact .overflow
      · cases failed
        exact .unread .integer s DataType.noConfusion
  all_goals cases failed
  exact .unread .integer _ DataType.noConfusion

theorem to_double_failure (present : a ≠ .null) (failed : a.toDouble = .error failure) :
    ∃ s, a = .text s ∧ Converting .double failure := by
  obtain ⟨s, rfl, unread⟩ := (to_double_fails a present).mp ⟨failure, failed⟩
  rw [toDouble, unread] at failed
  cases failed
  exact ⟨s, rfl, .unread .double s DataType.noConfusion⟩

theorem convert_failure (target : DataType) (failed : a.convert target = .error failure) :
    Converting target failure := by
  by_cases null : a = .null
  · subst null
    cases failed
  cases target with
  | boolean =>
      rw [convert_boolean a null] at failed
      exact to_boolean_failure a failure (DatumError.mapped_failed _ _ _ failed)
  | integer =>
      rw [convert_integer a null] at failed
      exact to_integer_failure a failure (DatumError.mapped_failed _ _ _ failed)
  | double =>
      rw [convert_double a null] at failed
      obtain ⟨_, _, converting⟩ :=
        to_double_failure a failure null (DatumError.mapped_failed _ _ _ failed)
      exact converting
  | text => cases a <;> cases failed

theorem convert_text_answers : ∃ answer, a.convert .text = .ok answer := by
  cases a <;> exact ⟨_, rfl⟩

theorem convert_double_failure (present : a ≠ .null) (failed : a.convert .double = .error failure) :
    ∃ s, a = .text s := by
  rw [convert_double a present] at failed
  obtain ⟨s, text, _⟩ := to_double_failure a failure present (DatumError.mapped_failed _ _ _ failed)
  exact ⟨s, text⟩

end Failure

end Datum

inductive Aggregate.TellsUnfounded : Aggregate → Prop where
  | confidence (level : ConfidenceLevel) : TellsUnfounded (.confidence level)
  | geometricMean : TellsUnfounded .geometricMean
  | harmonicMean : TellsUnfounded .harmonicMean

namespace Accumulator

def Resultless (acc : Accumulator) : Prop :=
  match acc.aggregate with
  | .sum | .minimum | .maximum | .boolAnd | .boolOr | .bitAnd | .bitOr => acc.running = none
  | .average => acc.running = none ∨ acc.count = 0
  | .populationVariance | .populationDeviation => acc.count = 0
  | .sampleVariance | .sampleDeviation => acc.count < 2
  | .confidence _ | .geometricMean | .harmonicMean => False

inductive Drawn (acc : Accumulator) : Outcome → Prop where
  | missing (resultless : acc.Resultless) : Drawn acc .missing
  | unfounded (tells : acc.aggregate.TellsUnfounded) (uncounted : acc.count = 0) : Drawn acc .unfounded
  | value (datum : Datum) (present : datum ≠ .null) (found : ¬acc.Resultless)
      (founded : acc.aggregate.TellsUnfounded → acc.count ≠ 0) : Drawn acc (.value datum)

section Drawn

variable (acc : Accumulator)

theorem tells_result (tells : acc.aggregate.TellsUnfounded) : ¬acc.Resultless := by
  rw [Resultless]
  generalize acc.aggregate = aggregate at tells ⊢
  cases tells <;> exact id

theorem running_drawn (silent : ¬acc.aggregate.TellsUnfounded)
    (needs : acc.Resultless ↔ acc.running = none) (present : ∀ value, acc.running = some value → value ≠ .null) :
    Drawn acc (acc.running.elim .missing .value) := by
  cases running : acc.running with
  | none => exact .missing (needs.mpr running)
  | some value =>
      have found : ¬acc.Resultless := fun resultless => by
        rw [needs.mp resultless] at running
        cases running
      exact .value value (present value running) found fun tells => absurd tells silent

theorem given_drawn (least : Nat) (x : Binary64) (silent : ¬acc.aggregate.TellsUnfounded)
    (needs : acc.Resultless ↔ acc.count < least) :
    Drawn acc (if least ≤ acc.count then .value (.double x) else .missing) := by
  split
  next enough =>
    exact .value _ Datum.noConfusion (mt needs.mp (Nat.not_lt.mpr enough)) fun tells => absurd tells silent
  next few => exact .missing (needs.mpr (Nat.lt_of_not_le few))

theorem founded_drawn (datum : Datum) (present : datum ≠ .null) (tells : acc.aggregate.TellsUnfounded) :
    Drawn acc (if acc.count = 0 then .unfounded else .value datum) := by
  split
  next none => exact .unfounded tells none
  next founded => exact .value datum present (tells_result acc tells) fun _ => founded

-- The total is a double and the divisor no zero, so no step of the division can fail.
theorem average_drawn [PowerFunction] (kind : acc.aggregate = .average)
    (typed : ∀ value, acc.running = some value → value.type? = some .double)
    (few : (acc.count : Int) ≤ Word.greatest) : ∃ result, acc.outcome = .ok result ∧ Drawn acc result := by
  have needs : acc.Resultless ↔ acc.running = none ∨ acc.count = 0 := by rw [Resultless, kind]
  rw [outcome, kind]
  cases running : acc.running with
  | none => exact ⟨_, rfl, .missing (needs.mpr (.inl running))⟩
  | some value =>
      have type := typed value running
      cases value <;> cases type
      next total =>
        by_cases uncounted : acc.count = 0
        · exact ⟨.missing, if_pos uncounted, .missing (needs.mpr (.inr uncounted))⟩
        · have found : ¬acc.Resultless := by simp [needs, running, uncounted]
          simp only [if_neg uncounted, share_double total acc.count (Nat.pos_of_ne_zero uncounted), if_pos few]
          exact ⟨_, rfl, .value _ Datum.noConfusion found fun _ => uncounted⟩

end Drawn

theorem outcome_drawn [PowerFunction] (acc : Accumulator) (rows : List Datum) (runs : Runs acc rows)
    (few : (acc.count : Int) ≤ Word.greatest) : ∃ result, acc.outcome = .ok result ∧ Drawn acc result := by
  have suits := runs.suits
  have present (value : Datum) (kept : acc.running = some value) : value ≠ .null :=
    suits_present _ _ rows value runs.present (suits value kept)
  obtain ⟨aggregate, dataType, count, running, moments, product, reciprocals, held⟩ := acc
  cases aggregate with
  | average => exact average_drawn _ rfl suits few
  | populationVariance => exact ⟨_, rfl, given_drawn _ 1 _ nofun Nat.lt_one_iff.symm⟩
  | populationDeviation => exact ⟨_, rfl, given_drawn _ 1 _ nofun Nat.lt_one_iff.symm⟩
  | sampleVariance => exact ⟨_, rfl, given_drawn _ 2 _ nofun Iff.rfl⟩
  | sampleDeviation => exact ⟨_, rfl, given_drawn _ 2 _ nofun Iff.rfl⟩
  | confidence level => exact ⟨_, rfl, founded_drawn _ _ Datum.noConfusion (.confidence level)⟩
  | geometricMean => exact ⟨_, rfl, founded_drawn _ _ Datum.noConfusion .geometricMean⟩
  | harmonicMean => exact ⟨_, rfl, founded_drawn _ _ Datum.noConfusion .harmonicMean⟩
  | _ => exact ⟨_, rfl, running_drawn _ nofun Iff.rfl present⟩

section Deliver

variable (acc : Accumulator) (result : Outcome) (drawn : Drawn acc result) (target : DataType)

include drawn

theorem deliver_failure (failure : DatumError) (failed : result.deliver target = .error failure) :
    Datum.Converting target failure ∧ ∃ datum, result = .value datum ∧ datum ≠ .null := by
  cases drawn with
  | missing => cases failed
  | unfounded => cases failed
  | value datum present => exact ⟨Datum.convert_failure datum failure target failed, datum, rfl, present⟩

theorem deliver_null : result.deliver target = .ok .null ↔ acc.Resultless := by
  cases drawn with
  | missing resultless => exact ⟨fun _ => resultless, fun _ => rfl⟩
  | unfounded tells none =>
      exact ⟨fun null => (by cases null), fun resultless => absurd resultless (tells_result acc tells)⟩
  | value datum present found =>
      exact ⟨fun null => absurd null (Datum.convert_present datum present target),
        fun resultless => absurd resultless found⟩

end Deliver

/-- After every run of steps a plain finish can fail only where its result is converted. It answers NULL just where
there is no result; the aggregates that tell so answer one text instead, which is not converted. -/
theorem finish_fails_converting [PowerFunction] (aggregate : Aggregate) (dataType : DataType) (steps : List Step)
    (few : ((empty aggregate dataType).after steps).count < 2 ^ 63) :
    let acc := (empty aggregate dataType).after steps
    let answer (target : DataType) := (acc.finish target false).1
    ∃ result, acc.outcome = .ok result ∧ (∀ target, answer target = result.deliver target) ∧
      (∀ target failure, answer target = .error failure → Datum.Converting target failure) ∧
      (∃ shown, answer .text = .ok shown) ∧
      (∀ failure, answer .double = .error failure → ∃ s, result = .value (.text s)) ∧
      (∀ target, answer target = .ok .null ↔ acc.Resultless) ∧
      (aggregate.TellsUnfounded → ∀ target, answer target ≠ .ok .null ∧
        (acc.count = 0 → answer target = .ok (.text "null"))) := by
  intro acc answer
  have runs : Runs acc _ := after_invariant runs_invariant _ [] [] steps (empty_holds aggregate dataType)
    (empty_runs aggregate dataType)
  have fits : (acc.count : Int) ≤ Word.greatest :=
    Int.le_sub_one_of_lt (Int.ofNat_lt.mpr few)
  have kind : acc.aggregate = aggregate := (after_kind (empty aggregate dataType) steps).1
  obtain ⟨result, computed, drawn⟩ := outcome_drawn acc _ runs fits
  have answered (target : DataType) : answer target = result.deliver target := by
    change acc.outcome.bind (·.deliver target) = _
    rw [computed, Except.bind]
  have null (target : DataType) : answer target = .ok .null ↔ acc.Resultless := by
    rw [answered]
    exact deliver_null acc result drawn target
  refine ⟨result, computed, answered, fun target failure failed => ?_, ?_, fun failure failed => ?_, null,
    fun tells target => ⟨?_, fun none => ?_⟩⟩
  · rw [answered] at failed
    exact (deliver_failure acc result drawn target failure failed).1
  · rw [answered]
    cases drawn with
    | value datum => exact datum.convert_text_answers
    | _ => exact ⟨_, rfl⟩
  · rw [answered] at failed
    obtain ⟨_, datum, rfl, present⟩ := deliver_failure acc result drawn .double failure failed
    obtain ⟨s, rfl⟩ := Datum.convert_double_failure datum failure present failed
    exact ⟨s, rfl⟩
  · exact mt (null target).mp (tells_result acc (kind ▸ tells))
  · rw [answered]
    cases drawn with
    | missing resultless => exact absurd resultless (tells_result acc (kind ▸ tells))
    | unfounded => rfl
    | value datum present found founded => exact absurd none (founded (kind ▸ tells))

-- A distinct finish that failed on its second row leaves a total and a count to divide it by.
theorem finish_fails_converting_half :
    let before := (empty .average .integer).after [.add (.text "1.5") true, .add (.text "b") true]
    let steps := [.add (.text "1.5") true, .add (.text "b") true, .finish .double true]
    let acc := (empty .average .integer).after steps
    (∃ failure, (before.finish .double true).1 = .error failure) ∧ acc.count < 2 ^ 63 ∧
      (acc.finish .integer false).1 = .ok (.integer 2) ∧ ¬acc.Resultless ∧
      ∃ shown, (acc.finish .text false).1 = .ok shown := by
  intro before steps acc
  have few : acc.count < 2 ^ 63 := by decide +kernel
  have answer : (acc.finish .integer false).1 = .ok (.integer 2) := by decide +kernel
  obtain ⟨result, _, _, _, shown, _, null, _⟩ := finish_fails_converting .average .integer steps few
  have found : ¬acc.Resultless := fun resultless => by
    cases answer.symm.trans ((null .integer).mpr resultless)
  exact ⟨⟨.notConvertible "b" .double, by decide +kernel⟩, few, answer, found, shown⟩

end Accumulator

end Aggregation
