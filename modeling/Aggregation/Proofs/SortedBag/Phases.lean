import Mathlib
import Aggregation.Proofs.SortedBag.Invariant

set_option autoImplicit false

namespace Aggregation.SortedBag

inductive Refused : Request → BagError → Prop where
  | add (value : Datum) : Refused (.add value) .frozen
  | remove (value : Datum) : Refused (.remove value) .frozen
  | addAll (values : List Datum) : Refused (.addAll values) .frozen
  | removeAll (values : List Datum) : Refused (.removeAll values) .frozen
  | freeze : Refused .freeze .frozenTwice

inductive Positional : Request → Prop where
  | get (index : Nat) : Positional (.get index)
  | mode : Positional .mode
  | median : Positional .median
  | percentile (fraction : Binary64) : Positional (.percentile fraction)
  | cursor (calls : List Cursor.Call) : Positional (.cursor calls)

section Frozen

variable (bag : SortedBag) (frozen : bag.isFrozen = true)

include frozen

theorem change_frozen (changed : Bool × SortedBag) : bag.change changed = (.error .frozen, bag) := by
  rw [change, if_pos frozen]

theorem freeze_frozen : bag.freeze = (.error .frozenTwice, bag) := by
  rw [freeze, if_pos frozen]

theorem refused_frozen (request : Request) (failure : BagError) (refused : Refused request failure) :
    bag.perform request = (.error failure, bag) := by
  cases refused with
  | add value => rw [perform, add, change_frozen bag frozen]; rfl
  | remove value => rw [perform, remove, change_frozen bag frozen]; rfl
  | addAll values => rw [perform, addAll, change_frozen bag frozen]; rfl
  | removeAll values => rw [perform, removeAll, change_frozen bag frozen]; rfl
  | freeze => rw [perform, freeze_frozen bag frozen]; rfl

theorem cursor_calls_frozen (calls : List Cursor.Call) : (bag.perform (.cursor calls)).2 = bag := by
  rw [perform]
  cases opened : bag.cursor with
  | error failure => rfl
  | ok cursor =>
      obtain ⟨same, _⟩ := cursor_frozen bag cursor opened
      exact (Cursor.run_bag cursor calls (same ▸ frozen)).trans same

theorem perform_frozen (request : Request) (kept : request ≠ .clear) :
    (bag.perform request).2 = bag := by
  cases request with
  | add value => rw [refused_frozen bag frozen _ _ (.add value)]
  | remove value => rw [refused_frozen bag frozen _ _ (.remove value)]
  | addAll values => rw [refused_frozen bag frozen _ _ (.addAll values)]
  | removeAll values => rw [refused_frozen bag frozen _ _ (.removeAll values)]
  | freeze => rw [refused_frozen bag frozen _ _ .freeze]
  | cursor calls => exact cursor_calls_frozen bag frozen calls
  | clear => exact absurd rfl kept
  | _ => rfl

theorem run_frozen (requests : List Request) (kept : .clear ∉ requests) :
    bag.run requests = requests.map fun request => ((bag.perform request).1, bag) := by
  induction requests with
  | nil => rfl
  | cons request requests ih =>
      obtain ⟨first, rest⟩ := List.ne_and_not_mem_of_not_mem_cons kept
      have same := perform_frozen bag frozen request first.symm
      rw [run, List.map_cons, same, ih rest]
      exact congrArg (· :: _) (Prod.ext rfl same)

theorem after_frozen (requests : List Request) (kept : .clear ∉ requests) :
    bag.after requests = bag := by
  induction requests with
  | nil => rfl
  | cons request requests ih =>
      obtain ⟨first, rest⟩ := List.ne_and_not_mem_of_not_mem_cons kept
      rw [after, List.foldl_cons, perform_frozen bag frozen request first.symm]
      exact ih rest

end Frozen

theorem table_collecting (bag : SortedBag) (collecting : bag.isFrozen = false) :
    bag.table = .error .notFrozen := by
  rw [table, collecting_of_not_frozen bag (by simp [collecting])]

theorem positional_collecting (bag : SortedBag) (request : Request) (collecting : bag.isFrozen = false)
    (positional : Positional request) : bag.perform request = (.error .notFrozen, bag) := by
  have absent := table_collecting bag collecting
  cases positional with
  | get index => rw [perform, get, absent]; rfl
  | mode => rw [perform, mode, absent]; rfl
  | median => rw [perform, median, absent]; rfl
  | percentile fraction => rw [perform, percentile, absent]; rfl
  | cursor calls =>
      rw [perform, cursor, absent]
      rfl

theorem run_append (bag : SortedBag) (requests later : List Request) :
    bag.run (requests ++ later) = bag.run requests ++ (bag.after requests).run later := by
  induction requests generalizing bag with
  | nil => rfl
  | cons request requests ih => exact congrArg (_ :: ·) (ih (bag.perform request).2)

/-- While it is not cleared, a frozen bag refuses every change and serves each request of a run as if it were the first.
A bag that collects serves no request that reads by position. -/
theorem frozen_until_cleared (bag : SortedBag) (requests : List Request) :
    (bag.isFrozen = true → .clear ∉ requests →
        bag.run requests = requests.map (fun request => ((bag.perform request).1, bag)) ∧
          bag.after requests = bag ∧
          ∀ request failure, Refused request failure → bag.perform request = (.error failure, bag)) ∧
      (bag.isFrozen = false → ∀ request, Positional request →
        bag.perform request = (.error .notFrozen, bag)) ∧
      ∀ later, bag.run (requests ++ .clear :: later) =
        bag.run requests ++ (.ok .done, empty) :: empty.run later := by
  refine ⟨fun frozen kept => ?_, fun collecting request positional => ?_, fun later => ?_⟩
  · exact ⟨run_frozen bag frozen requests kept, after_frozen bag frozen requests kept,
      refused_frozen bag frozen⟩
  · exact positional_collecting bag request collecting positional
  · rw [run_append]
    rfl

theorem frozen_until_cleared_two :
    let bag := empty.after [.addAll [.integer 1, .null], .freeze]
    let requests := [.addAll [], .cursor [.next, .remove], .freeze, .median]
    bag.isFrozen = true ∧ .clear ∉ requests ∧ bag.after requests = bag ∧
      (bag.run requests).map (·.1.toOption.isSome) = [false, true, false, true] := by
  intro bag requests
  have frozen : bag.isFrozen = true := by decide +kernel
  have kept : .clear ∉ requests := by decide +kernel
  obtain ⟨served, same, refused⟩ := (frozen_until_cleared bag requests).1 frozen kept
  refine ⟨frozen, kept, same, ?_⟩
  rw [served]
  decide +kernel

end Aggregation.SortedBag
