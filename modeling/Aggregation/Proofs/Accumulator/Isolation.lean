import Mathlib
import Aggregation.Proofs.Accumulator.Folded

set_option autoImplicit false

namespace Aggregation.Accumulator

inductive Spread : Aggregate → Prop where
  | populationDeviation : Spread .populationDeviation
  | sampleDeviation : Spread .sampleDeviation
  | populationVariance : Spread .populationVariance
  | sampleVariance : Spread .sampleVariance
  | confidence (level : ConfidenceLevel) : Spread (.confidence level)

inductive Seeded : Aggregate → Prop where
  | spread (aggregate : Aggregate) (spread : Spread aggregate) : Seeded aggregate
  | geometricMean : Seeded .geometricMean
  | harmonicMean : Seeded .harmonicMean

section Group

variable {β : Type} (aggregate : Aggregate) (kept : Accumulator → β)

-- States in which no further row of the group can tell what was before its first; what was kept is
-- the same only once a row was counted.
structure SameGroup (acc other : Accumulator) : Prop where
  kind : acc.aggregate = aggregate
  otherKind : other.aggregate = aggregate
  count : acc.count = other.count
  kept : acc.count ≠ 0 → kept acc = kept other

inductive SameFold : Except DatumError Accumulator → Except DatumError Accumulator → Prop where
  | failed (failure : DatumError) : SameFold (.error failure) (.error failure)
  | folded (acc other : Accumulator) (same : SameGroup aggregate kept acc other) :
      SameFold (.ok acc) (.ok other)

structure Rests [PowerFunction] : Prop where
  fold : ∀ acc other row, SameGroup aggregate kept acc other →
    SameFold aggregate kept (acc.fold row) (other.fold row)
  outcome : ∀ acc other, SameGroup aggregate kept acc other → acc.outcome = other.outcome

theorem same_fold_map (answer : Except DatumError Binary64) (next other : Binary64 → Accumulator)
    (same : ∀ x, SameGroup aggregate kept (next x) (other x)) :
    SameFold aggregate kept (answer.map next) (answer.map other) := by
  cases answer with
  | error failure => exact .failed failure
  | ok x => exact .folded _ _ (same x)

variable {aggregate kept} [PowerFunction] (rests : Rests aggregate kept) (acc other : Accumulator)

include rests

theorem fold_all_same (rows : List Datum) (same : SameGroup aggregate kept acc other) :
    (acc.foldAll rows).1 = (other.foldAll rows).1 ∧
      SameGroup aggregate kept (acc.foldAll rows).2 (other.foldAll rows).2 := by
  induction rows generalizing acc other with
  | nil => exact ⟨rfl, same⟩
  | cons row rows ih =>
      have folds := rests.fold acc other row same
      rw [foldAll, foldAll]
      generalize acc.fold row = result at folds
      generalize other.fold row = otherResult at folds
      cases folds with
      | failed failure => exact ⟨rfl, same⟩
      | folded next otherNext nextSame => exact ih next otherNext nextSame

theorem finish_same (target : DataType) (kind : acc.aggregate = aggregate)
    (otherKind : other.aggregate = aggregate) (held : acc.held = other.held) :
    (acc.finish target true).1 = (other.finish target true).1 ∧
      (acc.finish target true).2.count = (other.finish target true).2.count := by
  have uncounted : SameGroup aggregate kept acc.emptied other.emptied :=
    ⟨kind, otherKind, rfl, fun counted => absurd rfl counted⟩
  obtain ⟨answers, same⟩ := fold_all_same rests _ _ acc.held.toList uncounted
  have released : acc.release.1 = other.release.1 ∧
      SameGroup aggregate kept acc.release.2 other.release.2 := by
    rw [release, release, ← held]
    exact ⟨answers, same⟩
  rw [finish_release, finish_release, finish_state, finish_state, released.1, answer, answer,
    rests.outcome _ _ released.2]
  exact ⟨rfl, released.2.count⟩

end Group

theorem fold_spread (acc : Accumulator) (row : Datum) (spread : Spread acc.aggregate) :
    acc.fold row = row.toDouble.map fun x =>
      { acc with
        count := acc.count + 1
        moments := acc.moments.push .ofNat (acc.count + 1) x } := by
  obtain ⟨aggregate, dataType, count, running, moments, product, reciprocals, held⟩ := acc
  cases spread <;> rfl

theorem push_same (moments other : Moments Binary64) (count : Nat) (x : Binary64)
    (same : count ≠ 0 → moments = other) :
    moments.push .ofNat (count + 1) x = other.push .ofNat (count + 1) x :=
  ite_congr rfl (fun _ => rfl) fun later => by rw [same (by omega)]

theorem spread_uncounted [PowerFunction] (acc : Accumulator) (spread : Spread acc.aggregate) (count : acc.count = 0) :
    acc.outcome = .ok (match acc.aggregate with | .confidence _ => .unfounded | _ => .missing) := by
  obtain ⟨aggregate, dataType, counted, running, moments, product, reciprocals, held⟩ := acc
  cases spread <;> simp [outcome, show counted = 0 from count]

theorem spread_outcome [PowerFunction] (acc other : Accumulator) (spread : Spread acc.aggregate)
    (kind : other.aggregate = acc.aggregate) (count : acc.count = other.count)
    (same : acc.count ≠ 0 → acc.moments = other.moments) : acc.outcome = other.outcome := by
  by_cases first : acc.count = 0
  · rw [spread_uncounted acc spread first, spread_uncounted other (kind ▸ spread) (count ▸ first), kind]
  · have moments := same first
    obtain ⟨aggregate, dataType, counted, running, _, product, reciprocals, held⟩ := acc
    obtain ⟨_, otherType, _, otherRunning, _, otherProduct, otherReciprocals, otherHeld⟩ := other
    cases kind
    cases count
    cases moments
    cases spread <;> rfl

theorem spread_rests [PowerFunction] (aggregate : Aggregate) (spread : Spread aggregate) :
    Rests aggregate (·.moments) where
  fold acc other row same := by
    obtain ⟨rfl, kind, count, moments⟩ := same
    rw [fold_spread acc row spread, fold_spread other row (kind ▸ spread), ← count]
    exact same_fold_map _ _ _ _ _ fun x =>
      ⟨rfl, kind, rfl, fun _ => push_same acc.moments other.moments acc.count x moments⟩
  outcome acc other same := by
    obtain ⟨rfl, kind, count, moments⟩ := same
    exact spread_outcome acc other spread kind count moments

theorem geometric_rests [PowerFunction] : Rests .geometricMean (·.product) where
  fold acc other row same := by
    obtain ⟨kind, otherKind, count, product⟩ := same
    simp only [fold, kind, otherKind, ← count]
    refine same_fold_map _ _ _ _ _ fun x => ⟨rfl, rfl, rfl, fun _ => ?_⟩
    exact ite_congr rfl (fun _ => rfl) fun later => by rw [product (by omega)]
  outcome acc other same := by
    obtain ⟨kind, otherKind, count, product⟩ := same
    simp only [outcome, kind, otherKind, ← count]
    exact congrArg Except.ok (ite_congr rfl (fun _ => rfl) fun counted => by rw [product counted])

theorem harmonic_rests [PowerFunction] : Rests .harmonicMean (·.reciprocals) where
  fold acc other row same := by
    obtain ⟨kind, otherKind, count, reciprocals⟩ := same
    simp only [fold, kind, otherKind, ← count]
    refine same_fold_map _ _ _ _ _ fun x => ⟨rfl, rfl, rfl, fun _ => ?_⟩
    exact ite_congr rfl (fun _ => rfl) fun later => by rw [reciprocals (by omega)]
  outcome acc other same := by
    obtain ⟨kind, otherKind, count, reciprocals⟩ := same
    simp only [outcome, kind, otherKind, ← count]
    exact congrArg Except.ok (ite_congr rfl (fun _ => rfl) fun counted => by rw [reciprocals counted])

/-- Of two accumulators of one such aggregate that hold the same rows, whatever else was added to them,
finished or failed before, a distinct finish answers the same and leaves the same count. -/
theorem distinct_isolated [PowerFunction] (aggregate : Aggregate) (seeded : Seeded aggregate)
    (dataType otherType : DataType) (steps others : List Step)
    (same : ∀ row, row ∈ ((empty aggregate dataType).after steps).held.toList ↔
      row ∈ ((empty aggregate otherType).after others).held.toList) (target : DataType) :
    (((empty aggregate dataType).after steps).finish target true).1 =
        (((empty aggregate otherType).after others).finish target true).1 ∧
      (((empty aggregate dataType).after steps).finish target true).2.count =
        (((empty aggregate otherType).after others).finish target true).2.count := by
  have kind := (after_kind (empty aggregate dataType) steps).1
  have otherKind := (after_kind (empty aggregate otherType) others).1
  have holds := run_holds _ _ steps (empty_holds aggregate dataType)
  have otherHolds := run_holds _ _ others (empty_holds aggregate otherType)
  generalize (empty aggregate dataType).after steps = acc at same kind holds
  generalize (empty aggregate otherType).after others = other at same otherKind otherHolds
  have held : acc.held = other.held :=
    Array.toList_inj.mp
      (ascending_same_members _ _ otherHolds.kept.ascending holds.kept.ascending same)
  cases seeded with
  | spread aggregate spread =>
      exact finish_same (spread_rests aggregate spread) acc other target kind otherKind held
  | geometricMean => exact finish_same geometric_rests acc other target kind otherKind held
  | harmonicMean => exact finish_same harmonic_rests acc other target kind otherKind held

theorem distinct_isolated_mean :
    let steps := [.add (.integer 3) false, .add (.text "5") true, .add (.text "five") true,
      .finish .double true, .add (.integer 4) true, .add (.integer 9) true]
    let others := [.add (.integer 9) true, .add (.integer 4) true]
    let acc := (empty .geometricMean .double).after steps
    let other := (empty .geometricMean .integer).after others
    acc.count = 1 ∧ (∀ row, row ∈ acc.held.toList ↔ row ∈ other.held.toList) ∧
      (acc.finish .double true).1 = (other.finish .double true).1 ∧
      (acc.finish .double true).2.count = (other.finish .double true).2.count ∧
      (other.finish .double true).1 = .ok (.double (.ofBits 0x4018000000000000)) := by
  intro steps others acc other
  have held : acc.held = other.held := by decide +kernel
  have same : ∀ row, row ∈ acc.held.toList ↔ row ∈ other.held.toList := fun row => by rw [held]
  obtain ⟨answer, count⟩ :=
    distinct_isolated .geometricMean .geometricMean .double .integer steps others same .double
  exact ⟨by decide +kernel, same, answer, count, by decide +kernel⟩

end Aggregation.Accumulator
