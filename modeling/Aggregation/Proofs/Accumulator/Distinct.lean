import Mathlib
import Aggregation.Proofs.Accumulator.Held

set_option autoImplicit false

namespace Aggregation

namespace DatumError

variable {α β : Type} (answer : Except DatumError α) (b : β)

theorem mapped_ok (next : α → β) (mapped : answer.map next = .ok b) :
    ∃ a, answer = .ok a ∧ next a = b := by
  cases answer with
  | error failure => cases mapped
  | ok a => exact ⟨a, rfl, Except.ok.inj mapped⟩

theorem bound_ok (next : α → Except DatumError β) (bound : answer.bind next = .ok b) :
    ∃ a, answer = .ok a ∧ next a = .ok b := by
  cases answer with
  | error failure => cases bound
  | ok a => exact ⟨a, rfl, bound⟩

end DatumError

namespace Accumulator

def addEach (acc : Accumulator) : List Datum → Except DatumError Unit × Accumulator
  | [] => (.ok (), acc)
  | row :: rows =>
      match acc.add row false with
      | (.error failure, after) => (.error failure, after)
      | (.ok (), after) => after.addEach rows

def emptied (acc : Accumulator) : Accumulator :=
  { acc with count := 0, held := #[] }

def replay [PowerFunction] (acc : Accumulator) (rows : List Datum) (target : DataType) :
    Except DatumError Datum × Accumulator :=
  match acc.emptied.addEach rows with
  | (.error failure, after) => (.error failure, after)
  | (.ok (), after) => after.finish target false

def after [PowerFunction] (acc : Accumulator) (steps : List Step) : Accumulator :=
  steps.foldl (fun acc step => (acc.perform step).2) acc

-- The distinct rows given before a step, and that of the step when it is accepted; a distinct
-- finish leaves none, whatever it answers.
def gather (given : List Datum) : Step × Except DatumError Reply → List Datum
  | (.add row true, .ok _) => if row.isNull then given else given ++ [row]
  | (.finish _ true, _) => []
  | _ => given

def given [PowerFunction] (acc : Accumulator) (steps : List Step) : List Datum :=
  (steps.zip ((acc.run steps).map (·.1))).foldl gather []

theorem fold_frame (acc next : Accumulator) (row : Datum) (folded : acc.fold row = .ok next) :
    next.held = acc.held ∧ next.count = acc.count + 1 := by
  rw [fold] at folded
  cases kind : acc.aggregate <;> simp only [kind] at folded <;>
    obtain ⟨_, _, rfl⟩ := DatumError.mapped_ok _ _ _ folded <;> exact ⟨rfl, rfl⟩

theorem fold_all_frame (acc : Accumulator) (rows : List Datum) :
    (acc.foldAll rows).2.held = acc.held ∧
      ((acc.foldAll rows).1 = .ok () → (acc.foldAll rows).2.count = acc.count + rows.length) := by
  induction rows generalizing acc with
  | nil => exact ⟨rfl, fun _ => rfl⟩
  | cons row rows ih =>
      rw [foldAll]
      cases folded : acc.fold row with
      | error failure => exact ⟨rfl, fun done => by cases done⟩
      | ok next =>
          obtain ⟨held, count⟩ := fold_frame acc next row folded
          obtain ⟨restHeld, restCount⟩ := ih next
          refine ⟨restHeld.trans held, fun done => ?_⟩
          rw [restCount done, count, List.length_cons]
          omega

theorem fold_kind (acc next : Accumulator) (row : Datum) (folded : acc.fold row = .ok next) :
    next.aggregate = acc.aggregate ∧ next.dataType = acc.dataType := by
  rw [fold] at folded
  cases kind : acc.aggregate <;> simp only [kind] at folded <;>
    obtain ⟨_, _, rfl⟩ := DatumError.mapped_ok _ _ _ folded <;> exact ⟨rfl, rfl⟩

theorem fold_all_kind (acc : Accumulator) (rows : List Datum) :
    (acc.foldAll rows).2.aggregate = acc.aggregate ∧ (acc.foldAll rows).2.dataType = acc.dataType := by
  induction rows generalizing acc with
  | nil => exact ⟨rfl, rfl⟩
  | cons row rows ih =>
      rw [foldAll]
      cases folded : acc.fold row with
      | error failure => exact ⟨rfl, rfl⟩
      | ok next =>
          obtain ⟨aggregate, dataType⟩ := fold_kind acc next row folded
          exact ⟨(ih next).1.trans aggregate, (ih next).2.trans dataType⟩

theorem is_null_iff (row : Datum) : row.isNull = true ↔ row = .null := by
  cases row <;> simp [Datum.isNull]

theorem add_plain (acc : Accumulator) (row : Datum) (present : row ≠ .null) :
    acc.add row false = match acc.fold row with
      | .ok next => (.ok (), next)
      | .error failure => (.error failure, acc) := by
  rw [add, if_neg (mt (is_null_iff row).mp present)]
  rfl

theorem add_distinct (acc : Accumulator) (row : Datum) (present : row ≠ .null) :
    acc.add row true = match hold acc.held row with
      | .ok held => (.ok (), { acc with held := held })
      | .error failure => (.error failure, acc) := by
  rw [add, if_neg (mt (is_null_iff row).mp present), if_pos rfl]
  cases hold acc.held row <;> rfl

theorem add_failed (acc : Accumulator) (row : Datum) (distinct : Bool) (failure : DatumError)
    (failed : (acc.add row distinct).1 = .error failure) : (acc.add row distinct).2 = acc := by
  rw [add] at failed ⊢
  by_cases null : row.isNull = true
  · rw [if_pos null]
  · rw [if_neg null] at failed ⊢
    generalize (if distinct then (hold acc.held row).map fun held => { acc with held := held }
      else acc.fold row) = next at failed ⊢
    cases next with
    | error other => rfl
    | ok next => cases failed

theorem add_each_fold (acc : Accumulator) (rows : List Datum) (present : ∀ row ∈ rows, row ≠ .null) :
    acc.addEach rows = acc.foldAll rows := by
  induction rows generalizing acc with
  | nil => rfl
  | cons row rows ih =>
      rw [addEach, foldAll, add_plain acc row (present row List.mem_cons_self)]
      cases acc.fold row with
      | error failure => rfl
      | ok next => exact ih next fun row later => present row (List.mem_cons_of_mem _ later)

theorem add_each_frame (acc state : Accumulator) (rows : List Datum)
    (present : ∀ row ∈ rows, row ≠ .null) (added : acc.addEach rows = (.ok (), state)) :
    state.held = acc.held ∧ state.count = acc.count + rows.length := by
  obtain ⟨held, count⟩ := fold_all_frame acc rows
  rw [← add_each_fold acc rows present, added] at held count
  exact ⟨held, count rfl⟩

theorem add_each_stops (acc state : Accumulator) (before rest : List Datum) (row : Datum)
    (failure : DatumError) (added : acc.addEach before = (.ok (), state))
    (failed : (state.add row false).1 = .error failure) :
    acc.addEach (before ++ row :: rest) = (.error failure, state) := by
  induction before generalizing acc with
  | nil =>
      have same : acc = state := congrArg Prod.snd added
      have stopped : state.add row false = (.error failure, state) :=
        Prod.ext failed (add_failed state row false failure failed)
      rw [List.nil_append, addEach, same, stopped]
  | cons head tail ih =>
      rw [addEach] at added
      rw [List.cons_append, addEach]
      cases first : acc.add head false with
      | mk answer next =>
          cases answer with
          | error other => simp [first] at added
          | ok done =>
              rw [first] at added
              exact ih next added

theorem finish_replays [PowerFunction] (acc : Accumulator) (target : DataType)
    (present : ∀ row ∈ acc.held.toList, row ≠ .null) :
    acc.finish target true = acc.replay acc.held.toList target := by
  rw [finish, if_pos rfl, replay, add_each_fold _ _ present, release, emptied]
  generalize foldAll { acc with count := 0, held := #[] } acc.held.toList = released
  obtain ⟨answer, after⟩ := released
  cases answer with
  | error failure => rfl
  | ok done => rfl

theorem finish_state [PowerFunction] (acc : Accumulator) (target : DataType) :
    (acc.finish target true).2 = acc.release.2 := by
  rw [finish, if_pos rfl]
  generalize acc.release = released
  obtain ⟨answer, after⟩ := released
  cases answer with
  | error failure => rfl
  | ok done => rfl

theorem finish_release [PowerFunction] (acc : Accumulator) (target : DataType) :
    (acc.finish target true).1 = acc.release.1.bind fun _ => acc.release.2.answer target := by
  rw [finish, if_pos rfl]
  generalize acc.release = released
  obtain ⟨answer, after⟩ := released
  cases answer with
  | error failure => rfl
  | ok done => rfl

theorem finish_answer [PowerFunction] (acc : Accumulator) (target : DataType) (distinct : Bool) :
    (acc.finish target distinct).1 = (acc.finish target distinct).2.answer target ∨
      ∃ failure, distinct = true ∧ acc.release.1 = .error failure ∧
        (acc.finish target distinct).1 = .error failure := by
  cases distinct with
  | false => exact .inl rfl
  | true =>
      rw [finish, if_pos rfl]
      generalize acc.release = released
      obtain ⟨answer, after⟩ := released
      cases answer with
      | error failure => exact .inr ⟨failure, rfl, rfl, rfl⟩
      | ok done => exact .inl rfl

theorem finish_released [PowerFunction] (acc : Accumulator) (target : DataType) (released : acc.release.1 = .ok ()) :
    (acc.finish target true).1 = acc.release.2.answer target := by
  rw [finish_release, released]
  rfl

theorem finish_held [PowerFunction] (acc : Accumulator) (target : DataType) :
    (acc.finish target true).2.held = #[] := by
  rw [finish_state]
  exact (fold_all_frame acc.emptied acc.held.toList).1

structure Holds (acc : Accumulator) (given : List Datum) : Prop where
  kept : LastOfEach given acc.held.toList
  present : ∀ row ∈ given, row ≠ .null

theorem holds_present (acc : Accumulator) (given : List Datum) (holds : Holds acc given) :
    ∀ row ∈ acc.held.toList, row ≠ .null := fun row inside =>
  holds.present row (last_alike_given given row ((holds.kept.last_iff row).mp inside))

theorem empty_holds (aggregate : Aggregate) (dataType : DataType) :
    Holds (empty aggregate dataType) [] :=
  ⟨last_of_each_nil, by simp⟩

theorem add_plain_holds (acc : Accumulator) (given : List Datum) (row : Datum)
    (holds : Holds acc given) : Holds (acc.add row false).2 given := by
  by_cases null : row = .null
  · rw [add, if_pos ((is_null_iff row).mpr null)]
    exact holds
  · rw [add_plain acc row null]
    cases folded : acc.fold row with
    | error failure => exact holds
    | ok next => exact ⟨(fold_frame acc next row folded).1 ▸ holds.kept, holds.present⟩

theorem add_distinct_holds (acc : Accumulator) (given : List Datum) (row : Datum)
    (holds : Holds acc given) :
    ((acc.add row true).1 = .ok () ∧
        Holds (acc.add row true).2 (if row.isNull then given else given ++ [row]) ∧
        ∀ x ∈ acc.held.toList, Datum.Comparable x row) ∨
      ∃ failure, acc.add row true = (.error failure, acc) ∧
        ∃ x ∈ acc.held.toList, ¬Datum.Comparable x row := by
  by_cases null : row = .null
  · rw [add, if_pos ((is_null_iff row).mpr null), if_pos ((is_null_iff row).mpr null)]
    exact .inl ⟨rfl, holds, fun x _ => .inr (.inl null)⟩
  · rw [add_distinct acc row null, if_neg (mt (is_null_iff row).mp null)]
    rcases hold_last given acc.held row holds.kept with
      ⟨fresh, held, kept, comparable⟩ | ⟨failure, refused, apart⟩
    · rw [held]
      refine .inl ⟨rfl, ⟨kept, fun x inside => ?_⟩, comparable⟩
      rcases List.mem_append.mp inside with old | new
      · exact holds.present x old
      · rwa [List.mem_singleton.mp new]
    · rw [refused]
      exact .inr ⟨failure, rfl, apart⟩

theorem distinct_rejected_iff (acc : Accumulator) (given : List Datum) (holds : Holds acc given)
    (row : Datum) : (∃ failure, (acc.add row true).1 = .error failure) ↔
      ∃ x ∈ acc.held.toList, ¬Datum.Comparable x row := by
  rcases add_distinct_holds acc given row holds with ⟨done, _, comparable⟩ | ⟨failure, failed, apart⟩
  · simp only [done, reduceCtorEq, exists_false, false_iff, not_exists, not_and, not_not]
    exact comparable
  · exact ⟨fun _ => apart, fun _ => ⟨failure, congrArg Prod.fst failed⟩⟩

theorem perform_holds [PowerFunction] (acc : Accumulator) (given : List Datum) (step : Step) (holds : Holds acc given) :
    Holds (acc.perform step).2 (gather given (step, (acc.perform step).1)) := by
  cases step with
  | add row distinct =>
      cases distinct with
      | false => exact add_plain_holds acc given row holds
      | true =>
          rw [perform]
          rcases add_distinct_holds acc given row holds with ⟨done, next, _⟩ | ⟨failure, failed, _⟩
          · simpa only [done, Except.map, gather] using next
          · simpa only [failed, Except.map, gather] using holds
  | finish target distinct =>
      cases distinct with
      | false => exact holds
      | true =>
          refine ⟨?_, by simp [gather]⟩
          have held := finish_held acc target
          rw [perform]
          simpa only [held, gather] using last_of_each_nil

theorem run_holds [PowerFunction] (acc : Accumulator) (given : List Datum) (steps : List Step)
    (holds : Holds acc given) :
    Holds (acc.after steps) ((steps.zip ((acc.run steps).map (·.1))).foldl gather given) := by
  induction steps generalizing acc given with
  | nil => exact holds
  | cons step steps ih => exact ih _ _ (perform_holds acc given step holds)

-- How an accumulator that holds these rows back takes in and finishes distinct rows. A row that
-- fails stops the finish with what the rows before it did.
structure Replays [PowerFunction] (acc : Accumulator) (rows : List Datum) : Prop where
  held : acc.held.toList = rows
  finish : ∀ target, acc.finish target true = acc.replay rows target
  failing : ∀ before row rest, rows = before ++ row :: rest → ∀ state failure,
    acc.emptied.addEach before = (.ok (), state) → (state.add row false).1 = .error failure →
      (∀ target, acc.finish target true = (.error failure, state)) ∧
        state.count = before.length ∧ state.held = #[]
  rejects : ∀ row, (∃ failure, (acc.add row true).1 = .error failure) ↔
    ∃ x ∈ rows, ¬Datum.Comparable x row

theorem holds_replays [PowerFunction] (acc : Accumulator) (given : List Datum) (holds : Holds acc given) :
    Replays acc acc.held.toList := by
  have present := holds_present acc given holds
  have finish (target : DataType) := finish_replays acc target present
  refine ⟨rfl, finish, fun before row rest split state failure added failed => ?_,
    distinct_rejected_iff acc given holds⟩
  have first : ∀ x ∈ before, x ≠ .null := fun x inside =>
    present x (split ▸ List.mem_append_left _ inside)
  obtain ⟨held, count⟩ := add_each_frame acc.emptied state before first added
  refine ⟨fun target => ?_, count.trans (Nat.zero_add _), held⟩
  rw [finish, replay, split, add_each_stops _ state before rest row failure added failed]

/-- After every run of steps, whatever they answered, the held rows are the last of each class of the
distinct rows accepted since the last distinct finish, and a distinct finish adds just these. -/
theorem finish_distinct [PowerFunction] (aggregate : Aggregate) (dataType : DataType) (steps : List Step) :
    ∃ rows, LastOfEach ((empty aggregate dataType).given steps) rows ∧
      (∀ others, LastOfEach ((empty aggregate dataType).given steps) others → others = rows) ∧
      Replays ((empty aggregate dataType).after steps) rows := by
  have holds := run_holds _ _ steps (empty_holds aggregate dataType)
  exact ⟨_, holds.kept, fun others also => last_of_each_unique _ _ _ holds.kept also,
    holds_replays _ _ holds⟩

end Accumulator

end Aggregation
