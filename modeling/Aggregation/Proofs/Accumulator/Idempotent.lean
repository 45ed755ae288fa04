import Mathlib
import Aggregation.Proofs.Accumulator.Arrival
import Aggregation.Proofs.Accumulator.Merging

set_option autoImplicit false

namespace Aggregation

open Datum

structure Covers (given rows : List Datum) : Prop where
  inside : ∀ row ∈ rows, row ∈ given
  alike : ∀ row ∈ given, ∃ other ∈ rows, row.Alike other

theorem last_of_each_covers (given rows : List Datum) (kept : LastOfEach given rows) :
    Covers given rows where
  inside row member := last_alike_given given row ((kept.last_iff row).mp member)
  alike row member := by
    obtain ⟨last, lastAlike, alike⟩ := last_alike_exists given row member
    exact ⟨last, (kept.last_iff last).mpr lastAlike, alike⟩

theorem extreme_alike (wanted : Ordering) (given rows : List Datum) (best other : Datum)
    (covers : Covers given rows) (strict : wanted ≠ .eq) (extreme : Extreme wanted given (some best))
    (among : Extreme wanted rows (some other)) : other.Alike best := by
  obtain ⟨bestIn, first⟩ := extreme
  obtain ⟨otherIn, least⟩ := among
  obtain ⟨twin, twinIn, alike⟩ := covers.alike best bestIn
  obtain ⟨order, answer, notBefore⟩ := first other (covers.inside other otherIn)
  obtain ⟨back, backAnswer, notAfter⟩ := least twin twinIn
  have reversed := compare_congr best twin other back alike backAnswer
  rw [compare_rank other best ((comparable_iff _ _).mpr ⟨_, answer⟩), Except.ok.injEq] at answer
  rw [compare_rank best other ((comparable_iff _ _).mpr ⟨_, reversed⟩), Except.ok.injEq] at reversed
  subst answer reversed
  apply (alike_iff other best).mpr
  cases wanted with
  | eq => exact absurd rfl strict
  | lt =>
      rw [Ne, cmp_eq_lt_iff, not_lt] at notBefore notAfter
      exact le_antisymm notAfter notBefore
  | gt =>
      rw [Ne, cmp_eq_gt_iff, not_lt] at notBefore notAfter
      exact le_antisymm notBefore notAfter

namespace Accumulator

section Merge

variable {β : Type} {read : Datum → Except DatumError β} {shown : β → Datum} {merge : β → β → β}
  {aggregate : Aggregate} {dataType : DataType}

theorem covered_readings (alike_read : ∀ a b : Datum, a.Alike b → read a = read b)
    (given rows : List Datum) (covers : Covers given rows) (readings : List β)
    (reads : Reads read given readings) :
    ∃ others, Reads read rows others ∧ ∀ x, x ∈ readings ↔ x ∈ others := by
  obtain ⟨others, also⟩ := reads_exists read rows fun row member =>
    reads_readable read given readings reads row (covers.inside row member)
  refine ⟨others, also, fun x => ?_⟩
  rw [reads_mem read given readings reads, reads_mem read rows others also]
  constructor
  · rintro ⟨row, member, answer⟩
    obtain ⟨other, otherIn, alike⟩ := covers.alike row member
    exact ⟨other, otherIn, alike_read row other alike ▸ answer⟩
  · rintro ⟨row, member, answer⟩
    exact ⟨row, covers.inside row member, answer⟩

theorem covered_merged [Std.Commutative merge] [Std.Associative merge] [Std.IdempotentOp merge]
    (merges : Merges read shown merge aggregate dataType)
    (alike_read : ∀ a b : Datum, a.Alike b → read a = read b) (acc : Accumulator)
    (given rows : List Datum) (kind : acc.aggregate = aggregate) (type : acc.dataType = dataType)
    (unstarted : acc.running = none) (covers : Covers given rows)
    (present : ∀ row ∈ given, row ≠ .null) (done : (acc.foldAll given).1 = .ok ()) :
    (acc.foldAll rows).1 = .ok () ∧ (acc.foldAll rows).2.running = (acc.foldAll given).2.running := by
  have rowsPresent : ∀ row ∈ rows, row ≠ .null := fun row member =>
    present row (covers.inside row member)
  obtain ⟨whole, readings, reads, state⟩ :=
    fold_all_merges merges acc given none kind type unstarted present
  rw [whole.mp done] at reads
  obtain ⟨others, also, members⟩ := covered_readings alike_read given rows covers readings reads
  obtain ⟨otherWhole, again, same, final⟩ :=
    fold_all_merges merges acc rows none kind type unstarted rowsPresent
  have all := reads_whole read rows others also
  rw [all] at same
  have equal : again = others :=
    List.map_injective_iff.mpr (fun _ _ => Except.ok.inj) (same.symm.trans also)
  refine ⟨otherWhole.mpr all, ?_⟩
  rw [state, final, equal, merged_same_members merge none others readings fun x => (members x).symm]

end Merge

theorem fold_all_selects (acc : Accumulator) (wanted : Ordering) (values rows : List Datum)
    (selects : Selects acc.aggregate wanted) (extreme : Extreme wanted values acc.running)
    (comparable : ∀ x ∈ values ++ rows, ∀ y ∈ values ++ rows, Comparable x y) :
    (acc.foldAll rows).1 = .ok () ∧ Extreme wanted (values ++ rows) (acc.foldAll rows).2.running := by
  induction rows generalizing acc values with
  | nil => exact ⟨rfl, by rwa [List.append_nil]⟩
  | cons row rows ih =>
      obtain ⟨best, selected, next⟩ := select_fresh wanted values acc.running row
        (selects_strict acc.aggregate wanted selects) extreme
        (fun x inside => comparable x (List.mem_append_left _ inside) row (by simp))
        (values ++ [row]) (fun x => by simp [or_comm])
      rw [foldAll, fold_selects acc row wanted selects, selected]
      rw [List.append_cons] at comparable ⊢
      exact ih _ (values ++ [row]) selects next comparable

-- The aggregates that do not count their rows, with the types of their values and of their answers
-- for which this shows. A text keeps the way in which a number is written.
inductive Idempotent : Aggregate → DataType → DataType → Prop where
  | boolAnd (dataType target : DataType) : Idempotent .boolAnd dataType target
  | boolOr (dataType target : DataType) : Idempotent .boolOr dataType target
  | bitAnd (target : DataType) : Idempotent .bitAnd .integer target
  | bitOr (target : DataType) : Idempotent .bitOr .integer target
  | minimum (dataType target : DataType) (readable : target ≠ .text) :
      Idempotent .minimum dataType target
  | maximum (dataType target : DataType) (readable : target ≠ .text) :
      Idempotent .maximum dataType target

theorem idempotent_answer [PowerFunction] (acc : Accumulator) (target : DataType)
    (idempotent : Idempotent acc.aggregate acc.dataType target) :
    acc.answer target = acc.running.elim (.ok .null) (·.convert target) := by
  obtain ⟨aggregate, dataType, count, running, moments, product, reciprocals, held⟩ := acc
  cases idempotent <;> cases running <;> rfl

theorem fold_all_answer [PowerFunction] (acc : Accumulator) (rows : List Datum) (target : DataType)
    (idempotent : Idempotent acc.aggregate acc.dataType target) :
    (acc.foldAll rows).2.answer target =
      (acc.foldAll rows).2.running.elim (.ok .null) (·.convert target) := by
  obtain ⟨aggregate, dataType⟩ := fold_all_kind acc rows
  exact idempotent_answer _ target (aggregate ▸ dataType ▸ idempotent)

theorem covered_selected (acc : Accumulator) (wanted : Ordering) (given rows : List Datum)
    (target : DataType) (selects : Selects acc.aggregate wanted) (unstarted : acc.running = none)
    (covers : Covers given rows) (comparable : ∀ x ∈ given, ∀ y ∈ given, Comparable x y)
    (readable : target ≠ .text) :
    (acc.foldAll rows).1 = .ok () ∧
      SameAnswer ((acc.foldAll rows).2.running.elim (.ok .null) (·.convert target))
        ((acc.foldAll given).2.running.elim (.ok .null) (·.convert target)) := by
  have start : Extreme wanted [] acc.running := by rw [unstarted, Extreme]
  obtain ⟨_, extreme⟩ := fold_all_selects acc wanted [] given selects start comparable
  obtain ⟨done, among⟩ := fold_all_selects acc wanted [] rows selects start fun x xIn y yIn =>
    comparable x (covers.inside x xIn) y (covers.inside y yIn)
  refine ⟨done, ?_⟩
  rw [List.nil_append] at extreme among
  generalize (acc.foldAll given).2.running = best at extreme
  generalize (acc.foldAll rows).2.running = other at among
  cases best with
  | none =>
      cases other with
      | none => exact .equal .null .null rfl
      | some other => exact absurd (extreme ▸ covers.inside other among.1) List.not_mem_nil
  | some best =>
      cases other with
      | none =>
          obtain ⟨twin, inside, _⟩ := covers.alike best extreme.1
          exact absurd (among ▸ inside) List.not_mem_nil
      | some other =>
          have strict := selects_strict acc.aggregate wanted selects
          exact convert_alike other best target readable
            (extreme_alike wanted given rows best other covers strict extreme among)

theorem covered_answer [PowerFunction] (acc : Accumulator) (given rows : List Datum) (target : DataType)
    (idempotent : Idempotent acc.aggregate acc.dataType target) (unstarted : acc.running = none)
    (covers : Covers given rows) (present : ∀ row ∈ given, row ≠ .null)
    (comparable : ∀ x ∈ given, ∀ y ∈ given, Comparable x y) (done : (acc.foldAll given).1 = .ok ()) :
    (acc.foldAll rows).1 = .ok () ∧
      SameAnswer ((acc.foldAll rows).2.answer target) ((acc.foldAll given).2.answer target) := by
  rw [fold_all_answer acc rows target idempotent, fold_all_answer acc given target idempotent]
  have same (equal : (acc.foldAll rows).2.running = (acc.foldAll given).2.running) :
      SameAnswer ((acc.foldAll rows).2.running.elim (.ok .null) (·.convert target))
        ((acc.foldAll given).2.running.elim (.ok .null) (·.convert target)) := by
    rw [equal]
    exact same_answer_refl _
  generalize aggregate_eq : acc.aggregate = aggregate, type_eq : acc.dataType = dataType at idempotent
  cases idempotent with
  | boolAnd =>
      apply And.imp_right same
      exact covered_merged (bool_and_merges dataType) to_boolean_alike acc given rows aggregate_eq
        type_eq unstarted covers present done
  | boolOr =>
      apply And.imp_right same
      exact covered_merged (bool_or_merges dataType) to_boolean_alike acc given rows aggregate_eq
        type_eq unstarted covers present done
  | bitAnd =>
      apply And.imp_right same
      exact covered_merged bit_and_merges to_integer_alike acc given rows aggregate_eq type_eq
        unstarted covers present done
  | bitOr =>
      apply And.imp_right same
      exact covered_merged bit_or_merges to_integer_alike acc given rows aggregate_eq type_eq
        unstarted covers present done
  | minimum _ _ readable =>
      exact covered_selected acc .lt given rows target (aggregate_eq ▸ .minimum) unstarted covers
        comparable readable
  | maximum _ _ readable =>
      exact covered_selected acc .gt given rows target (aggregate_eq ▸ .maximum) unstarted covers
        comparable readable

theorem fed_plain [PowerFunction] (acc : Accumulator) (rows : List Datum) (present : ∀ row ∈ rows, row ≠ .null)
    (accepted : ∀ flag ∈ acc.taken rows false, flag = true) :
    acc.foldAll rows = (.ok (), acc.fed rows false) := by
  induction rows generalizing acc with
  | nil => rfl
  | cons row rows ih =>
      rw [taken_cons, List.forall_mem_cons, add_plain acc row (present row List.mem_cons_self)]
        at accepted
      cases folded : acc.fold row with
      | error failure => simp [folded, Except.isOk, Except.toBool] at accepted
      | ok next =>
          rw [folded] at accepted
          rw [foldAll, folded]
          have rest := ih next (fun other later => present other (List.mem_cons_of_mem _ later))
            accepted.2
          have first : (acc.add row false).2 = next := by
            rw [add_plain acc row (present row List.mem_cons_self), folded]
          exact rest.trans (by rw [← first]; rfl)

/-- Rows that can be compared, and that are all taken in as plain rows, are taken in as distinct ones. An aggregate that
does not count them finishes over either with the same failure or an equal value. -/
theorem distinct_idempotent [PowerFunction] (aggregate : Aggregate) (dataType target : DataType) (rows : List Datum)
    (idempotent : Idempotent aggregate dataType target) (present : ∀ row ∈ rows, row ≠ .null)
    (comparable : ∀ x ∈ rows, ∀ y ∈ rows, Comparable x y)
    (accepted : ∀ flag ∈ (empty aggregate dataType).taken rows false, flag = true) :
    (∀ flag ∈ (empty aggregate dataType).taken rows true, flag = true) ∧
      SameAnswer (((empty aggregate dataType).fed rows true).finish target true).1
        (((empty aggregate dataType).fed rows false).finish target false).1 := by
  have plain := fed_plain _ rows present accepted
  obtain ⟨flags, held, state, holds⟩ :=
    fed_distinct _ [] rows (empty_holds aggregate dataType) comparable
  have all : withoutNull rows = rows := by
    apply List.filter_eq_self.mpr
    intro row inside
    rw [Bool.not_eq_true', ← Bool.not_eq_true, is_null_iff]
    exact present row inside
  rw [List.nil_append, all, state] at holds
  have covers := last_of_each_covers rows held.toList holds.kept
  obtain ⟨done, same⟩ := covered_answer (empty aggregate dataType) rows held.toList target idempotent rfl
    covers present comparable (by rw [plain])
  refine ⟨fun flag inside => ?_, ?_⟩
  · rw [flags] at inside
    obtain ⟨_, _, answer⟩ := List.mem_map.mp inside
    exact answer.symm
  · rw [plain] at same
    rw [state, finish_released { empty aggregate dataType with held := held } target done]
    exact same

theorem distinct_idempotent_minimum :
    let rows := [.double .one, .integer 3, .double (.ofNat 3), .integer 1]
    let acc := empty .minimum .integer
    Idempotent .minimum .integer .integer ∧ (∀ row ∈ rows, row ≠ .null) ∧
      (∀ x ∈ rows, ∀ y ∈ rows, Comparable x y) ∧ (∀ flag ∈ acc.taken rows false, flag = true) ∧
      (acc.fed rows false).running = some (.double .one) ∧
      ((acc.fed rows true).finish .integer true).2.running = some (.integer 1) ∧
      SameAnswer ((acc.fed rows true).finish .integer true).1
        ((acc.fed rows false).finish .integer false).1 := by
  intro rows acc
  have idempotent : Idempotent .minimum .integer .integer := .minimum _ _ (by decide)
  have present : ∀ row ∈ rows, row ≠ .null := by decide +kernel
  have comparable : ∀ x ∈ rows, ∀ y ∈ rows, Comparable x y := by decide +kernel
  have accepted : ∀ flag ∈ acc.taken rows false, flag = true := by decide +kernel
  exact ⟨idempotent, present, comparable, accepted, by decide +kernel, by decide +kernel,
    (distinct_idempotent .minimum .integer .integer rows idempotent present comparable accepted).2⟩

end Accumulator

end Aggregation
