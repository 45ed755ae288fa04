import Mathlib
import Aggregation.Proofs.SortedBag.Phases
import Aggregation.Proofs.SortedBag.Positions

set_option autoImplicit false

namespace Aggregation

namespace Cursor

def Reply.yields : Reply → List Datum
  | .item value => value.toList
  | .items values => values
  | .number _ => []
  | .flag _ => []

def yielded (answers : List (Except BagError Reply)) : List Datum :=
  answers.flatMap fun answer => answer.toOption.elim [] Reply.yields

def told (values : List Datum) (count : Nat) : Call → Except BagError Reply
  | .next => .ok (.item values[count]?)
  | .remaining => .ok (.number (values.length - count))
  | .rest => .ok (.items (values.drop count))
  | .remove => .error (if count = 0 then .nothingYielded else .frozen)

def reached (bag : SortedBag) (values : List Datum) (count : Nat) : Cursor :=
  ⟨bag, count, (values.take count).getLast?⟩

theorem run_length (cursor : Cursor) (calls : List Call) : (cursor.run calls).1.length = calls.length := by
  induction calls generalizing cursor with
  | nil => rfl
  | cons call calls ih => exact congrArg (· + 1) (ih (cursor.perform call).2)

theorem run_append (cursor : Cursor) (calls later : List Call) :
    cursor.run (calls ++ later) =
      ((cursor.run calls).1 ++ ((cursor.run calls).2.run later).1, ((cursor.run calls).2.run later).2) := by
  induction calls generalizing cursor with
  | nil => rfl
  | cons call calls ih =>
      rw [List.cons_append, run, ih]
      rfl

section Reached

variable (bag : SortedBag) (values : List Datum) (lists : bag.Lists values) (count : Nat)

include lists

theorem next_inside (value : Datum) (found : values[count]? = some value) :
    (reached bag values count).next = (some value, reached bag values (count + 1)) := by
  have read := lists.reads count
  rw [found] at read
  have last : (values.take (count + 1)).getLast? = some value := by
    rw [List.take_add_one, found, Option.toList_some, List.getLast?_concat]
  rw [next, reached, reached, last]
  generalize bag.get count = answer at read
  cases answer with
  | error failure => cases read
  | ok other =>
      cases read
      rfl

theorem next_past (past : values.length ≤ count) :
    (reached bag values count).next = (none, reached bag values count) := by
  have read := lists.reads count
  rw [List.getElem?_eq_none past] at read
  rw [next, reached]
  generalize bag.get count = answer at read
  cases answer with
  | error failure => rfl
  | ok value => cases read

theorem yield_reached (number : Nat) (whole : count + number = values.length) :
    (reached bag values count).yieldUpTo number = (values.drop count, reached bag values values.length) := by
  induction number generalizing count with
  | zero => rw [yieldUpTo, ← whole, Nat.add_zero, List.drop_of_length_le (by omega)]
  | succ number ih =>
      have inside : count < values.length := by omega
      have found := List.getElem?_eq_getElem inside
      rw [yieldUpTo, next_inside bag values lists count _ found]
      simp only
      rw [ih (count + 1) (by omega), List.drop_eq_getElem_cons inside]

theorem remove_reached (within : count ≤ values.length) : (reached bag values count).remove =
    (.error (if count = 0 then .nothingYielded else .frozen), reached bag values count) := by
  rw [remove, reached]
  cases count with
  | zero => rfl
  | succ count =>
      have last : (values.take (count + 1)).getLast? = some values[count] := by
        rw [List.take_add_one, List.getElem?_eq_getElem within, Option.toList_some, List.getLast?_concat]
      simp only [last, if_neg (Nat.succ_ne_zero count), SortedBag.remove,
        SortedBag.change_frozen bag lists.frozen]

theorem perform_reached (within : count ≤ values.length) (call : Call) :
    (reached bag values count).perform call = (told values count call,
      reached bag values (count + (yielded [told values count call]).length)) := by
  rw [yielded, List.flatMap_singleton]
  cases call with
  | next =>
      by_cases inside : count < values.length
      · have found := List.getElem?_eq_getElem inside
        rw [perform, next_inside bag values lists count _ found, told, found]
        rfl
      · rw [perform, next_past bag values lists count (not_lt.mp inside), told,
          List.getElem?_eq_none (not_lt.mp inside)]
        rfl
  | remaining =>
      rw [perform, remaining, told, lists.size]
      rfl
  | rest =>
      have number : (reached bag values count).remaining = values.length - count := by
        rw [remaining, lists.size]
        rfl
      have moved : count + (values.drop count).length = values.length := by
        rw [List.length_drop]
        omega
      rw [perform, rest, number, yield_reached bag values lists count _ (by omega), told]
      simp only [Except.toOption, Option.elim_some, Reply.yields, moved]
  | remove =>
      rw [perform, remove_reached bag values lists count within, told]
      rfl

end Reached

theorem told_yields (values : List Datum) (count : Nat) (call : Call) :
    yielded [told values count call] <+: values.drop count := by
  rw [yielded, List.flatMap_singleton]
  cases call with
  | next =>
      change values[count]?.toList <+: values.drop count
      rw [← List.head?_drop]
      cases values.drop count with
      | nil => exact List.prefix_refl _
      | cons value rest => exact ⟨rest, rfl⟩
  | remaining => exact List.nil_prefix
  | rest => exact List.prefix_refl _
  | remove => exact List.nil_prefix

theorem yielded_cons (answer : Except BagError Reply) (answers : List (Except BagError Reply)) :
    yielded (answer :: answers) = yielded [answer] ++ yielded answers := by
  rw [yielded, yielded, yielded, List.flatMap_cons, List.flatMap_singleton]

theorem yielded_append (answers others : List (Except BagError Reply)) :
    yielded (answers ++ others) = yielded answers ++ yielded others :=
  List.flatMap_append

section Run

variable (bag : SortedBag) (values : List Datum) (lists : bag.Lists values) (count : Nat)
  (within : count ≤ values.length) (calls : List Call)

include lists within

theorem run_reached : yielded ((reached bag values count).run calls).1 <+: values.drop count ∧
    ((reached bag values count).run calls).2 =
      reached bag values (count + (yielded ((reached bag values count).run calls).1).length) := by
  induction calls generalizing count with
  | nil => exact ⟨List.nil_prefix, rfl⟩
  | cons call calls ih =>
      obtain ⟨rest, split⟩ := told_yields values count call
      have moved : values.drop (count + (yielded [told values count call]).length) = rest := by
        rw [← List.drop_drop, ← split, List.drop_left]
      have bound := congrArg List.length split
      rw [List.length_append, List.length_drop] at bound
      obtain ⟨first, final⟩ := ih (count + (yielded [told values count call]).length) (by omega)
      rw [moved] at first
      rw [run, perform_reached bag values lists count within call]
      simp only
      rw [yielded_cons]
      refine ⟨?_, ?_⟩
      · rw [← split]
        exact (List.prefix_append_right_inj _).mpr first
      · rw [final, List.length_append, Nat.add_assoc]

theorem run_count : count + (yielded ((reached bag values count).run calls).1).length ≤ values.length := by
  have bound := (run_reached bag values lists count within calls).1.length_le
  rw [List.length_drop] at bound
  omega

theorem none_at_end (ended : .ok (.item .none) ∈ ((reached bag values count).run calls).1) :
    count + (yielded ((reached bag values count).run calls).1).length = values.length := by
  have bound := run_count bag values lists count within calls
  induction calls generalizing count with
  | nil => cases ended
  | cons call calls ih =>
      have step := run_count bag values lists count within [call]
      rw [run, perform_reached bag values lists count within call] at ended bound step ⊢
      simp only [run] at ended bound step ⊢
      rw [yielded_cons, List.length_append, ← Nat.add_assoc] at bound ⊢
      rcases List.mem_cons.mp ended with here | later
      · cases call with
        | next =>
            have past : values.length ≤ count := by
              simpa [told] using here
            omega
        | remaining => simp [told] at here
        | rest => simp [told] at here
        | remove => simp [told] at here
      · exact ih _ step later bound

end Run

theorem opens_reached (bag : SortedBag) (values : List Datum) (lists : bag.Lists values) :
    bag.cursor = .ok (reached bag values 0) := by
  obtain ⟨table, phase⟩ := SortedBag.frozen_table bag lists.frozen
  rw [SortedBag.cursor, SortedBag.table, phase]
  rfl

theorem answer_told (bag : SortedBag) (values : List Datum) (lists : bag.Lists values)
    (before later : List Call) (call : Call) :
    ((reached bag values 0).run (before ++ call :: later)).1[before.length]? =
      some (told values (yielded ((reached bag values 0).run before).1).length call) := by
  have bound := run_count bag values lists 0 (Nat.zero_le _) before
  have final := (run_reached bag values lists 0 (Nat.zero_le _) before).2
  rw [Nat.zero_add] at bound final
  rw [run_append, List.getElem?_append_right (by rw [run_length]), run_length, Nat.sub_self, final, run,
    perform_reached bag values lists _ bound call]
  rfl

theorem none_once_ended (bag : SortedBag) (values : List Datum) (lists : bag.Lists values)
    (earlier between : List Call)
    (ended : .ok (.item .none) ∈ ((reached bag values 0).run earlier).1 ∨
      (yielded ((reached bag values 0).run earlier).1).length = bag.size) :
    told values (yielded ((reached bag values 0).run (earlier ++ between)).1).length .next =
      .ok (.item .none) := by
  have all : (yielded ((reached bag values 0).run earlier).1).length = values.length := by
    rcases ended with none | all
    · exact (Nat.zero_add _).symm.trans (none_at_end bag values lists 0 (Nat.zero_le _) earlier none)
    · rw [all, lists.size]
  rw [run_append, yielded_append, List.length_append, told, List.getElem?_eq_none (by omega)]

/-- Each call on a cursor of a frozen bag, whichever came before it, is answered from the number of values yielded until
then, and the bag is the same afterwards. -/
theorem calls_answered (bag : SortedBag) (reachable : bag.Reachable) (frozen : bag.isFrozen = true)
    (calls : List Call) :
    let cursor : Cursor := ⟨bag, 0, none⟩
    bag.cursor = .ok cursor ∧ ∃ values, values.map .ok = (List.range bag.size).map bag.get ∧
      yielded (cursor.run calls).1 <+: values ∧
      (∀ before call later, calls = before ++ call :: later →
        let answer := told values (yielded (cursor.run before).1).length call
        (cursor.run calls).1[before.length]? = some answer ∧
          (call = .remove → ((cursor.run before).2.perform call).2 = (cursor.run before).2) ∧
          ∀ earlier, earlier <+: before → .ok (.item none) ∈ (cursor.run earlier).1 ∨
            (yielded (cursor.run earlier).1).length = bag.size → call = .next → answer = .ok (.item none)) ∧
      (cursor.run calls).2.bag = bag ∧
      bag.perform (.cursor calls) = (.ok (.calls (cursor.run calls).1), bag) := by
  intro cursor
  have valid := SortedBag.reachable_valid bag reachable
  have lists := SortedBag.lists_occurrences bag valid frozen
  obtain ⟨table, phase⟩ := SortedBag.frozen_table bag frozen
  rw [valid.laid table phase] at phase
  have read := SortedBag.get_occurrences bag valid.toSound phase
  generalize SortedBag.occurrences bag.entries.toList = values at lists read
  have opened : bag.cursor = .ok cursor := opens_reached bag values lists
  have order : yielded (cursor.run calls).1 <+: values.drop 0 :=
    (run_reached bag values lists 0 (Nat.zero_le _) calls).1
  have same := run_bag cursor calls frozen
  rw [List.drop_zero] at order
  refine ⟨opened, values, read.symm, order, ?_, same, ?_⟩
  · rintro before call later rfl
    have within := run_count bag values lists 0 (Nat.zero_le _) before
    have moved : (cursor.run before).2 = _ := (run_reached bag values lists 0 (Nat.zero_le _) before).2
    refine ⟨answer_told bag values lists before later call, ?_, ?_⟩
    · rintro rfl
      rw [moved, perform_reached bag values lists _ within]
      rfl
    · rintro earlier ⟨between, rfl⟩ ended rfl
      exact none_once_ended bag values lists earlier between ended
  · rw [SortedBag.perform, opened]
    simp only [same]
    rfl

theorem calls_answered_two :
    let bag := SortedBag.empty.after [.addAll [.integer 7, .null], .freeze]
    let cursor : Cursor := ⟨bag, 0, none⟩
    let calls : List Call := [.remove, .next, .rest, .remaining, .remove, .next]
    bag.isFrozen = true ∧ bag.cursor = .ok cursor ∧ yielded (cursor.run calls).1 <+: [.null, .integer 7] ∧
      (cursor.run calls).1[0]? = some (.error .nothingYielded) ∧
      (cursor.run calls).1[3]? = some (.ok (.number 0)) ∧
      (cursor.run calls).1[4]? = some (.error .frozen) ∧
      (cursor.run calls).1[5]? = some (.ok (.item none)) ∧ (cursor.run calls).2.bag = bag := by
  intro bag cursor calls
  have frozen : bag.isFrozen = true := by decide +kernel
  have size : bag.size = 2 := by decide +kernel
  have all : (yielded (cursor.run [.remove, .next, .rest]).1).length = 2 := by decide +kernel
  have later : (yielded (cursor.run [.remove, .next, .rest, .remaining]).1).length = 2 := by decide +kernel
  have first : bag.get 0 = .ok .null := by decide +kernel
  have second : bag.get 1 = .ok (.integer 7) := by decide +kernel
  obtain ⟨opened, values, read, order, answers, same, _⟩ := calls_answered bag ⟨_, rfl⟩ frozen calls
  have listed : values = [.null, .integer 7] := by
    rw [size, List.range_succ, List.range_one, List.map_append, List.map_singleton, List.map_singleton,
      first, second] at read
    exact List.map_injective_iff.mpr (fun _ _ same => Except.ok.inj same) read
  subst listed
  refine ⟨frozen, opened, order, (answers [] .remove _ rfl).1, ?_, ?_, ?_, same⟩
  · have told := (answers [.remove, .next, .rest] .remaining _ rfl).1
    rwa [all] at told
  · have told := (answers [.remove, .next, .rest, .remaining] .remove _ rfl).1
    rwa [later] at told
  · have told := answers [.remove, .next, .rest, .remaining, .remove] .next _ rfl
    rw [told.2.2 [.remove, .next, .rest] ⟨_, rfl⟩ (.inr (all.trans size.symm)) rfl] at told
    exact told.1

end Cursor

end Aggregation
