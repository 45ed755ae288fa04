import Mathlib
import Aggregation.Proofs.Accumulator.Distinct

set_option autoImplicit false

namespace Aggregation

namespace Datum

theorem compare_congr (a b c : Datum) (order : Ordering) (alike : a.Alike b)
    (answer : b.compare c = .ok order) : a.compare c = .ok order := by
  have comparable := (comparable_iff b c).mpr ⟨order, answer⟩
  rw [compare_rank b c comparable] at answer
  rw [compare_rank a c ((comparable_congr a b c alike).mpr comparable), (alike_iff a b).mp alike, answer]

theorem compare_trans (a b c : Datum) (wanted first : Ordering) (comparable : Comparable a c)
    (left : a.compare b = .ok first) (other : first ≠ wanted) (right : c.compare b = .ok wanted) :
    ∃ order, a.compare c = .ok order ∧ order ≠ wanted := by
  refine ⟨_, compare_rank a c comparable, ?_⟩
  rw [compare_rank a b ((comparable_iff a b).mpr ⟨_, left⟩), Except.ok.injEq] at left
  rw [compare_rank c b ((comparable_iff c b).mpr ⟨_, right⟩), Except.ok.injEq] at right
  rw [← left] at other
  cases wanted with
  | lt =>
      rw [Ne, cmp_eq_lt_iff] at other ⊢
      rw [cmp_eq_lt_iff] at right
      order
  | eq =>
      rw [Ne, cmp_eq_eq_iff] at other ⊢
      rw [cmp_eq_eq_iff] at right
      rwa [right]
  | gt =>
      rw [Ne, cmp_eq_gt_iff] at other ⊢
      rw [cmp_eq_gt_iff] at right
      order

end Datum

def Extreme (wanted : Ordering) (values : List Datum) : Option Datum → Prop
  | none => values = []
  | some best => best ∈ values ∧ ∀ x ∈ values, ∃ order, x.compare best = .ok order ∧ order ≠ wanted

namespace Accumulator

variable (wanted : Ordering) (values : List Datum) (running : Option Datum) (row : Datum)

theorem select_alike (extreme : Extreme wanted values running) (alike : ∃ x ∈ values, row.Alike x) :
    ∃ best, running = some best ∧ selectWith wanted row running = .ok best := by
  obtain ⟨item, inside, alike⟩ := alike
  cases running with
  | none => exact absurd (extreme ▸ inside) List.not_mem_nil
  | some best =>
      obtain ⟨order, answer, other⟩ := extreme.2 item inside
      have same := Datum.compare_congr row item best order alike answer
      refine ⟨best, rfl, ?_⟩
      rw [selectWith, same, Except.map, if_neg other]

theorem select_fresh (strict : wanted ≠ .eq) (extreme : Extreme wanted values running)
    (comparable : ∀ x ∈ values, Datum.Comparable x row) (grown : List Datum)
    (members : ∀ x, x ∈ grown ↔ x = row ∨ x ∈ values) :
    ∃ best, selectWith wanted row running = .ok best ∧ Extreme wanted grown (some best) := by
  have own : row ∈ grown := (members row).mpr (.inl rfl)
  have itself : ∃ order, row.compare row = .ok order ∧ order ≠ wanted :=
    ⟨.eq, Datum.alike_refl row, strict.symm⟩
  cases running with
  | none =>
      refine ⟨row, rfl, own, fun x inside => ?_⟩
      rcases (members x).mp inside with rfl | old
      · exact itself
      · exact absurd (extreme ▸ old) List.not_mem_nil
  | some best =>
      obtain ⟨bestIn, least⟩ := extreme
      have near := Datum.comparable_symm best row (comparable best bestIn)
      obtain ⟨order, answer⟩ := (Datum.comparable_iff row best).mp near
      by_cases replaces : order = wanted
      · rw [replaces] at answer
        refine ⟨row, by rw [selectWith, answer, Except.map, if_pos rfl], own, fun x inside => ?_⟩
        rcases (members x).mp inside with rfl | old
        · exact itself
        · obtain ⟨first, left, other⟩ := least x old
          exact Datum.compare_trans x best row wanted first (comparable x old) left other answer
      · refine ⟨best, by rw [selectWith, answer, Except.map, if_neg replaces],
          (members best).mpr (.inr bestIn), fun x inside => ?_⟩
        rcases (members x).mp inside with rfl | old
        · exact ⟨order, answer, replaces⟩
        · exact least x old

theorem select_apart (extreme : Extreme wanted values running)
    (present : ∀ x ∈ values, x ≠ .null) (apart : ∃ x ∈ values, ¬Datum.Comparable x row) :
    ∃ failure, selectWith wanted row running = .error failure := by
  obtain ⟨item, inside, apart⟩ := apart
  cases running with
  | none => exact absurd (extreme ▸ inside) List.not_mem_nil
  | some best =>
      obtain ⟨order, answer, _⟩ := extreme.2 item inside
      have near := (Datum.comparable_iff item best).mpr ⟨order, answer⟩
      have refused : ¬Datum.Comparable row best := fun comparable => apart
        (Datum.comparable_trans item best row (present best extreme.1) near
          (Datum.comparable_symm row best comparable))
      exact ⟨_, by rw [selectWith, Datum.compare_refused row best refused]; rfl⟩

inductive Selects : Aggregate → Ordering → Prop where
  | minimum : Selects .minimum .lt
  | maximum : Selects .maximum .gt

theorem selects_strict (aggregate : Aggregate) (wanted : Ordering)
    (selects : Selects aggregate wanted) : wanted ≠ .eq := by
  cases selects <;> decide

theorem fold_selects (acc : Accumulator) (row : Datum) (wanted : Ordering)
    (selects : Selects acc.aggregate wanted) :
    acc.fold row = (selectWith wanted row acc.running).map fun running =>
      { acc with count := acc.count + 1, running := some running } := by
  obtain ⟨aggregate, dataType, count, running, moments, product, reciprocals, held⟩ := acc
  cases selects <;> rfl

theorem fold_all_minimum (acc : Accumulator) (rows : List Datum) (minimum : acc.aggregate = .minimum)
    (ascending : Ascending id rows)
    (first : ∀ best, acc.running = some best → ∀ row ∈ rows, best.Below row) :
    (acc.foldAll rows).1 = .ok () := by
  induction rows generalizing acc with
  | nil => rfl
  | cons row rows ih =>
      obtain ⟨least, rest⟩ := List.pairwise_cons.mp ascending
      have kept : ∃ best, selectWith .lt row acc.running = .ok best ∧ ∀ x ∈ rows, best.Below x := by
        cases running : acc.running with
        | none => exact ⟨row, rfl, least⟩
        | some best =>
            have before := first best running
            have above := (Datum.compare_gt_iff row best).mpr (before row List.mem_cons_self)
            refine ⟨best, ?_, fun x later => before x (List.mem_cons_of_mem _ later)⟩
            rw [selectWith, above, Except.map, if_neg (by decide)]
      obtain ⟨best, selected, below⟩ := kept
      rw [foldAll, fold_selects acc row .lt (minimum ▸ .minimum), selected]
      refine ih _ minimum rest fun other running => ?_
      rw [← Option.some.inj running]
      exact below

theorem selected_answer [PowerFunction] (acc : Accumulator) (wanted : Ordering) (best : Datum) (target : DataType)
    (selects : Selects acc.aggregate wanted) (running : acc.running = some best) :
    (acc.finish target false).1 = best.convert target := by
  obtain ⟨aggregate, dataType, count, kept, moments, product, reciprocals, held⟩ := acc
  cases running
  cases selects <;> rfl

end Accumulator

end Aggregation
