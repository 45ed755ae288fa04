import Mathlib
import Aggregation.Proofs.SortedBag.Steps

set_option autoImplicit false

namespace Aggregation

namespace Cursor

theorem next_bag (cursor : Cursor) : cursor.next.2.bag = cursor.bag := by
  rw [next]
  split <;> rfl

theorem yield_bag (cursor : Cursor) (number : Nat) : (cursor.yieldUpTo number).2.bag = cursor.bag := by
  induction number generalizing cursor with
  | zero => rfl
  | succ number ih =>
      have same := next_bag cursor
      rw [yieldUpTo]
      generalize cursor.next = yielded at same
      obtain ⟨value, after⟩ := yielded
      cases value with
      | none => exact same
      | some value => exact (ih after).trans same

theorem perform_bag (cursor : Cursor) (call : Call) (frozen : cursor.bag.isFrozen = true) :
    (cursor.perform call).2.bag = cursor.bag := by
  cases call with
  | next => exact next_bag cursor
  | remaining => rfl
  | rest => exact yield_bag cursor _
  | remove =>
      rw [perform, remove]
      cases cursor.last with
      | none => rfl
      | some value => simp only [SortedBag.remove, SortedBag.change, frozen, if_true]

theorem run_bag (cursor : Cursor) (calls : List Call) (frozen : cursor.bag.isFrozen = true) :
    (cursor.run calls).2.bag = cursor.bag := by
  induction calls generalizing cursor with
  | nil => rfl
  | cons call calls ih =>
      have same := perform_bag cursor call frozen
      exact (ih _ (same ▸ frozen)).trans same

end Cursor

namespace SortedBag

theorem put_phase (bag : SortedBag) (value : Datum) : (bag.put value).2.phase = bag.phase := by
  rw [put]
  split <;> rfl

theorem take_phase (bag : SortedBag) (value : Datum) : (bag.take value).2.phase = bag.phase := by
  rw [take]
  split <;> rfl

theorem each_sound (act : SortedBag → Datum → Bool × SortedBag)
    (keeps : ∀ bag value, bag.Sound → (act bag value).2.Sound)
    (phase : ∀ bag value, (act bag value).2.phase = bag.phase) (values : List Datum)
    (bag : SortedBag) (sound : bag.Sound) :
    (bag.withEach act values).2.Sound ∧ (bag.withEach act values).2.phase = bag.phase := by
  induction values generalizing bag with
  | nil => exact ⟨sound, rfl⟩
  | cons value values ih =>
      obtain ⟨kept, same⟩ := ih (act bag value).2 (keeps bag value sound)
      exact ⟨kept, same.trans (phase bag value)⟩

theorem collecting_of_not_frozen (bag : SortedBag) (unfrozen : ¬bag.isFrozen = true) :
    bag.phase = .collecting := by
  rw [isFrozen] at unfrozen
  cases phase : bag.phase with
  | collecting => rfl
  | frozen table => simp [phase] at unfrozen

theorem frozen_table (bag : SortedBag) (frozen : bag.isFrozen = true) :
    ∃ table, bag.phase = .frozen table := by
  rw [isFrozen] at frozen
  cases phase : bag.phase with
  | collecting => simp [phase] at frozen
  | frozen table => exact ⟨table, rfl⟩

theorem change_valid (bag : SortedBag) (changed : Bool × SortedBag) (valid : bag.Valid)
    (sound : changed.2.Sound) (phase : changed.2.phase = bag.phase) :
    (bag.change changed).2.Valid := by
  rw [change]
  split
  · exact valid
  next unfrozen =>
    refine ⟨sound, fun table frozen => ?_⟩
    have collecting : changed.2.phase = .collecting :=
      phase.trans (collecting_of_not_frozen bag unfrozen)
    rw [collecting] at frozen
    cases frozen

theorem empty_valid : empty.Valid where
  ascending := List.Pairwise.nil
  occurring := by simp [empty]
  size_eq := rfl
  laid := by simp [empty]

theorem freeze_valid (bag : SortedBag) (valid : bag.Valid) : bag.freeze.2.Valid := by
  rw [freeze]
  split
  · exact valid
  · refine ⟨⟨valid.ascending, valid.occurring, valid.size_eq⟩, fun table frozen => ?_⟩
    cases frozen
    rfl

theorem cursor_frozen (bag : SortedBag) (cursor : Cursor) (opened : bag.cursor = .ok cursor) :
    cursor.bag = bag ∧ bag.isFrozen = true := by
  rw [SortedBag.cursor, table] at opened
  rw [isFrozen]
  cases phase : bag.phase with
  | collecting => simp [phase, Except.map] at opened
  | frozen table =>
      simp only [phase, Except.map, Except.ok.injEq] at opened
      exact ⟨by rw [← opened], rfl⟩

theorem perform_valid (bag : SortedBag) (request : Request) (valid : bag.Valid) :
    (bag.perform request).2.Valid := by
  have sound := valid.toSound
  cases request with
  | add value => exact change_valid bag _ valid (sound_put bag value sound) (put_phase bag value)
  | remove value => exact change_valid bag _ valid (sound_take bag value sound) (take_phase bag value)
  | addAll values =>
      obtain ⟨kept, phase⟩ := each_sound put sound_put put_phase values bag sound
      exact change_valid bag _ valid kept phase
  | removeAll values =>
      obtain ⟨kept, phase⟩ := each_sound take sound_take take_phase values bag sound
      exact change_valid bag _ valid kept phase
  | clear => exact empty_valid
  | freeze => exact freeze_valid bag valid
  | cursor calls =>
      rw [perform]
      cases opened : bag.cursor with
      | error failure => exact valid
      | ok cursor =>
          obtain ⟨same, frozen⟩ := cursor_frozen bag cursor opened
          simp only [Cursor.run_bag cursor calls (same ▸ frozen), same]
          exact valid
  | _ => exact valid

def after (bag : SortedBag) (requests : List Request) : SortedBag :=
  requests.foldl (fun bag request => (bag.perform request).2) bag

def Reachable (bag : SortedBag) : Prop :=
  ∃ requests, bag = empty.after requests

theorem after_valid (bag : SortedBag) (requests : List Request) (valid : bag.Valid) :
    (bag.after requests).Valid := by
  induction requests generalizing bag with
  | nil => exact valid
  | cons request requests ih => exact ih _ (perform_valid bag request valid)

theorem reachable_valid (bag : SortedBag) (reachable : bag.Reachable) : bag.Valid := by
  obtain ⟨requests, rfl⟩ := reachable
  exact after_valid empty requests empty_valid

end SortedBag

end Aggregation
