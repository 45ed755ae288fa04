import Mathlib
import Aggregation.Proofs.Accumulator.Distinct

set_option autoImplicit false

namespace Aggregation.Accumulator

def folded (acc : Accumulator) : List Datum → List Datum
  | [] => []
  | row :: rows =>
      match acc.fold row with
      | .error _ => []
      | .ok next => row :: next.folded rows

def entered (acc : Accumulator) : Step → List Datum
  | .add row false => if row.isNull then [] else acc.folded [row]
  | .finish _ true => acc.emptied.folded acc.held.toList
  | _ => []

def foldedBy [PowerFunction] (acc : Accumulator) : List Step → List Datum
  | [] => []
  | step :: steps => acc.entered step ++ (acc.perform step).2.foldedBy steps

inductive Enters (acc : Accumulator) : List Datum → Accumulator → Prop where
  | folds (count : Nat) (held : Array Datum) (rows : List Datum) :
      Enters acc ({ acc with count := count, held := held }.folded rows)
        ({ acc with count := count, held := held }.foldAll rows).2

theorem enters_nothing (acc : Accumulator) (held : Array Datum) :
    Enters acc [] { acc with held := held } :=
  .folds acc.count held []

theorem perform_enters [PowerFunction] (acc : Accumulator) (step : Step) :
    Enters acc (acc.entered step) (acc.perform step).2 := by
  cases step with
  | add row distinct =>
      change Enters acc (acc.entered (.add row distinct)) (acc.add row distinct).2
      by_cases null : row = .null
      · rw [add, if_pos ((is_null_iff row).mpr null)]
        subst null
        cases distinct <;> exact enters_nothing acc acc.held
      cases distinct with
      | false =>
          rw [entered, if_neg (mt (is_null_iff row).mp null), add_plain acc row null]
          have folds := @Enters.folds acc acc.count acc.held [row]
          rw [foldAll] at folds
          cases result : acc.fold row with
          | error failure => simpa only [result] using folds
          | ok next => simpa only [result, foldAll] using folds
      | true =>
          rw [add_distinct acc row null]
          cases hold acc.held row with
          | error failure => exact enters_nothing acc acc.held
          | ok held => exact enters_nothing acc held
  | finish target distinct =>
      cases distinct with
      | false => exact enters_nothing acc acc.held
      | true =>
          change Enters acc _ (acc.finish target true).2
          rw [finish_state]
          exact .folds 0 #[] acc.held.toList

theorem perform_kind [PowerFunction] (acc : Accumulator) (step : Step) :
    (acc.perform step).2.aggregate = acc.aggregate ∧ (acc.perform step).2.dataType = acc.dataType := by
  have entering := perform_enters acc step
  generalize acc.entered step = rows at entering
  generalize (acc.perform step).2 = next at entering
  cases entering with
  | folds count held rows => exact fold_all_kind { acc with count := count, held := held } rows

theorem after_kind [PowerFunction] (acc : Accumulator) (steps : List Step) :
    (acc.after steps).aggregate = acc.aggregate ∧ (acc.after steps).dataType = acc.dataType := by
  induction steps generalizing acc with
  | nil => exact ⟨rfl, rfl⟩
  | cons step steps ih =>
      obtain ⟨aggregate, dataType⟩ := perform_kind acc step
      exact ⟨(ih _).1.trans aggregate, (ih _).2.trans dataType⟩

theorem after_append [PowerFunction] (acc : Accumulator) (steps more : List Step) :
    acc.after (steps ++ more) = (acc.after steps).after more :=
  List.foldl_append

theorem folded_given (acc : Accumulator) (rows : List Datum) (row : Datum)
    (inside : row ∈ acc.folded rows) : row ∈ rows := by
  induction rows generalizing acc with
  | nil => cases inside
  | cons first rows ih =>
      rw [folded] at inside
      cases result : acc.fold first with
      | error failure => simp [result] at inside
      | ok next =>
          simp only [result, List.mem_cons] at inside
          rcases inside with rfl | later
          · exact List.mem_cons_self
          · exact List.mem_cons_of_mem _ (ih next later)

theorem entered_present (acc : Accumulator) (given : List Datum) (step : Step) (holds : Holds acc given)
    (row : Datum) (inside : row ∈ acc.entered step) : row ≠ .null := by
  rw [entered.eq_def] at inside
  split at inside
  · split at inside
    · cases inside
    · rw [List.mem_singleton.mp (folded_given acc _ row inside)]
      exact mt (is_null_iff _).mpr ‹_›
  · exact holds_present acc given holds row (folded_given _ _ row inside)
  · cases inside

-- A relation between a state and the rows folded until then that every fold keeps, and that does not
-- look at the count or the held rows.
structure FoldInvariant (Inv : Accumulator → List Datum → Prop) : Prop where
  frame : ∀ acc rows count held, Inv acc rows → Inv { acc with count := count, held := held } rows
  fold : ∀ acc next rows row, row ≠ .null → Inv acc rows → acc.fold row = .ok next →
    Inv next (rows ++ [row])

section Invariant

variable {Inv : Accumulator → List Datum → Prop} (invariant : FoldInvariant Inv) (acc : Accumulator)
  (rows : List Datum)

include invariant

theorem fold_all_invariant (more : List Datum) (present : ∀ row ∈ acc.folded more, row ≠ .null)
    (inv : Inv acc rows) : Inv (acc.foldAll more).2 (rows ++ acc.folded more) := by
  induction more generalizing acc rows with
  | nil => rwa [folded, List.append_nil]
  | cons row more ih =>
      rw [folded] at present
      rw [foldAll, folded]
      cases result : acc.fold row with
      | error failure => rwa [List.append_nil]
      | ok next =>
          simp only [result, List.forall_mem_cons] at present
          have further := ih next _ present.2 (invariant.fold acc next rows row present.1 inv result)
          rwa [List.append_assoc, List.singleton_append] at further

theorem perform_invariant [PowerFunction] (step : Step) (present : ∀ row ∈ acc.entered step, row ≠ .null)
    (inv : Inv acc rows) : Inv (acc.perform step).2 (rows ++ acc.entered step) := by
  have entering := perform_enters acc step
  generalize acc.entered step = entered at entering present ⊢
  generalize (acc.perform step).2 = next at entering ⊢
  cases entering with
  | folds count held more =>
      exact fold_all_invariant invariant _ rows more present (invariant.frame acc rows count held inv)

theorem after_invariant [PowerFunction] (given : List Datum) (steps : List Step) (holds : Holds acc given)
    (inv : Inv acc rows) : Inv (acc.after steps) (rows ++ acc.foldedBy steps) := by
  induction steps generalizing acc rows given with
  | nil => rwa [foldedBy, List.append_nil]
  | cons step steps ih =>
      have present := entered_present acc given step holds
      rw [foldedBy, ← List.append_assoc]
      exact ih _ _ _ (perform_holds acc given step holds)
        (perform_invariant invariant acc rows step present inv)

end Invariant

end Aggregation.Accumulator
