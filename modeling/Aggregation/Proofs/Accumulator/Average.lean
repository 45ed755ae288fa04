import Mathlib
import Aggregation.Accumulator.Outcome
import Aggregation.Proofs.Accumulator.Arrival
import Aggregation.Proofs.Accumulator.Merging

set_option autoImplicit false

namespace Aggregation.Accumulator

theorem divide_doubles (x y : Binary64) (nonzero : y.isZero = false) :
    (Datum.double x).divide (.double y) = .ok (.double (x / y)) := by
  change (if y.isZero then _ else _) = _
  rw [if_neg (by simp [nonzero])]

theorem share_of_word (sum : Binary64) (count : Nat) (word : Int64)
    (found : Word.ofInt? count = some word) :
    share (.double sum) count =
      ((Datum.integer word).convert .double).bind (Datum.double sum).divide := by
  rw [share, found]
  rfl

theorem share_double (sum : Binary64) (count : Nat) (positive : 0 < count) :
    share (.double sum) count =
      if (count : Int) ≤ Word.greatest then .ok (.double (sum / .ofNat count)) else .error .overflow := by
  by_cases fits : (count : Int) ≤ Word.greatest
  · have low : Word.least ≤ count := by
      rw [Word.least]
      omega
    obtain ⟨word, found, exact_word⟩ := Word.of_int_inside count low fits
    have divisor : (Datum.integer word).convert .double = .ok (.double (.ofNat count)) := by
      rw [Datum.convert_double _ Datum.noConfusion, Datum.toDouble, exact_word, Binary64.of_int_nat]
      rfl
    -- The bind is unfolded by hand; compared as it stands, the divisor would be rounded in full.
    rw [if_pos fits, share_of_word sum count word found, divisor, Except.bind]
    exact divide_doubles sum _ (Binary64.of_nat_nonzero count positive)
  · rw [if_neg fits, share, Word.of_int_outside count (.inr (Int.lt_of_not_ge fits))]

def quotient (sum : Option Binary64) (count : Nat) (target : DataType) : Except DatumError Datum :=
  match sum with
  | none => .ok .null
  | some sum =>
      if count = 0 then .ok .null
      else if (count : Int) ≤ Word.greatest then (Datum.double (sum / .ofNat count)).convert target
      else .error .overflow

theorem average_answer [PowerFunction] (acc : Accumulator) (sum : Option Binary64) (target : DataType)
    (kind : acc.aggregate = .average) (running : acc.running = sum.map .double) :
    acc.answer target = quotient sum acc.count target := by
  rw [answer, outcome, kind, running]
  cases sum with
  | none => rfl
  | some sum =>
      by_cases zero : acc.count = 0
      · simp [quotient, zero, Except.bind, Outcome.deliver]
      · simp only [Option.map_some, quotient, if_neg zero, share_double sum acc.count (by omega)]
        split <;> rfl

structure Ledger where
  earlier : List Datum
  recent : List Datum

def Ledger.all (ledger : Ledger) : List Datum :=
  ledger.earlier ++ ledger.recent

-- The rows that a step folds are those that can be read as numbers; a distinct finish stops at the first
-- that cannot.
def enter (acc : Accumulator) (ledger : Ledger) : Step → Ledger
  | .add row false => { ledger with recent := ledger.recent ++ readable Datum.toDouble (withoutNull [row]) }
  | .add _ true => ledger
  | .finish _ false => ledger
  | .finish _ true => ⟨ledger.all, readable Datum.toDouble acc.held.toList⟩

def ledger [PowerFunction] (acc : Accumulator) (before : Ledger) : List Step → Ledger
  | [] => before
  | step :: steps => (acc.perform step).2.ledger (acc.enter before step) steps

theorem add_plain_folds (acc : Accumulator) (row : Datum) :
    (acc.add row false).2 = (acc.foldAll (withoutNull [row])).2 := by
  by_cases null : row = .null
  · subst null
    rfl
  · have kept : withoutNull [row] = [row] := by
      simp [withoutNull, mt (is_null_iff row).mp null]
    rw [kept, add_plain acc row null, foldAll]
    cases acc.fold row <;> rfl

-- The invariant of a run. Its last part is why no NULL is among the rows of a distinct finish.
structure Averages (acc : Accumulator) (ledger : Ledger) (numbers : List Binary64) : Prop where
  kind : acc.aggregate = .average
  reads : Reads Datum.toDouble ledger.all numbers
  running : acc.running = (merged (· + ·) none numbers).map .double
  count : acc.count = ledger.recent.length
  held : ∃ given, Holds acc given

theorem empty_averages (dataType : DataType) : Averages (empty .average dataType) ⟨[], []⟩ [] :=
  ⟨rfl, rfl, rfl, rfl, [], empty_holds _ _⟩

theorem fold_all_averages (acc : Accumulator) (rows : List Datum) (numbers : List Binary64)
    (kind : acc.aggregate = .average) (running : acc.running = (merged (· + ·) none numbers).map .double)
    (present : ∀ row ∈ rows, row ≠ .null) :
    ∃ more, Reads Datum.toDouble (readable Datum.toDouble rows) more ∧
      (acc.foldAll rows).2.running = (merged (· + ·) none (numbers ++ more)).map .double ∧
      (acc.foldAll rows).2.count = acc.count + (readable Datum.toDouble rows).length := by
  obtain ⟨_, more, reads, state⟩ := fold_all_merges (average_merges acc.dataType) acc rows
    (merged (· + ·) none numbers) kind rfl running present
  refine ⟨more, reads, ?_, ?_⟩
  · rw [state, merged_append]
  · rw [state, reads_length _ _ _ reads]

theorem enter_averages [PowerFunction] (acc : Accumulator) (ledger : Ledger) (numbers : List Binary64) (step : Step)
    (averages : Averages acc ledger numbers) :
    ∃ more, Averages (acc.perform step).2 (acc.enter ledger step) (numbers ++ more) := by
  obtain ⟨kind, reads, running, count, given, holds⟩ := averages
  have next : ∃ given, Holds (acc.perform step).2 given := ⟨_, perform_holds acc given step holds⟩
  cases step with
  | add row distinct =>
      cases distinct with
      | false =>
          have present : ∀ x ∈ withoutNull [row], x ≠ .null := fun x inside =>
            ((mem_without_null [row] x).mp inside).2
          obtain ⟨more, fresh, total, size⟩ := fold_all_averages acc _ numbers kind running present
          have folds : (acc.perform (.add row false)).2 = _ := add_plain_folds acc row
          refine ⟨more, ?_, ?_, ?_, ?_, next⟩
          · rw [folds, (fold_all_kind acc _).1, kind]
          · rw [Ledger.all, enter, ← List.append_assoc]
            exact reads_append _ _ _ _ _ reads fresh
          · rw [folds, total]
          · rw [folds, size, count, enter, List.length_append]
      | true =>
          obtain ⟨held, state⟩ := add_distinct_state acc row
          have same : (acc.perform (.add row true)).2 = { acc with held := held } := state
          rw [same] at next ⊢
          refine ⟨[], kind, ?_, ?_, count, next⟩
          · rwa [List.append_nil]
          · rwa [List.append_nil]
  | finish target distinct =>
      cases distinct with
      | false => exact ⟨[], kind, by rwa [List.append_nil], by rwa [List.append_nil], count, next⟩
      | true =>
          have present := holds_present acc given holds
          obtain ⟨more, fresh, total, size⟩ :=
            fold_all_averages acc.emptied acc.held.toList numbers kind running present
          have folds : (acc.perform (.finish target true)).2 = _ := finish_state acc target
          refine ⟨more, ?_, ?_, ?_, ?_, next⟩
          · rw [folds]
            exact (fold_all_kind acc.emptied _).1.trans kind
          · exact reads_append _ _ _ _ _ reads fresh
          · rw [folds]
            exact total
          · rw [folds]
            exact size.trans (Nat.zero_add _)

theorem ledger_averages [PowerFunction] (acc : Accumulator) (before : Ledger) (numbers : List Binary64)
    (steps : List Step) (averages : Averages acc before numbers) :
    ∃ more, Averages (acc.after steps) (acc.ledger before steps) (numbers ++ more) := by
  induction steps generalizing acc before numbers with
  | nil => exact ⟨[], by rwa [List.append_nil]⟩
  | cons step steps ih =>
      obtain ⟨first, next⟩ := enter_averages acc before numbers step averages
      obtain ⟨rest, final⟩ := ih _ _ _ next
      refine ⟨first ++ rest, ?_⟩
      rw [← List.append_assoc]
      exact final

theorem ledger_earlier [PowerFunction] (acc : Accumulator) (before : Ledger) (steps : List Step)
    (plain : ∀ step ∈ steps, ∀ target, step ≠ .finish target true) :
    (acc.ledger before steps).earlier = before.earlier := by
  induction steps generalizing acc before with
  | nil => rfl
  | cons step steps ih =>
      have same : (acc.enter before step).earlier = before.earlier := by
        cases step with
        | add row distinct => cases distinct <;> rfl
        | finish target distinct =>
            cases distinct with
            | false => rfl
            | true => exact absurd rfl (plain _ List.mem_cons_self target)
      rw [ledger, ih _ _ fun other later => plain other (List.mem_cons_of_mem _ later), same]

def AveragesAll (numbers : List Binary64) (target : DataType) (answer : Except DatumError Datum) : Prop :=
  ∀ datum, answer = .ok datum →
    if datum = .null then numbers = []
    else ∃ sum, merged (· + ·) none numbers = some sum ∧
      (Datum.double (sum / .ofNat numbers.length)).convert target = .ok datum

theorem quotient_averages (numbers : List Binary64) (target : DataType) :
    AveragesAll numbers target (quotient (merged (· + ·) none numbers) numbers.length target) := by
  intro datum answered
  cases total : merged (· + ·) none numbers with
  | none =>
      have empty := merged_none _ numbers total
      rw [total, quotient, Except.ok.injEq] at answered
      rw [if_pos answered.symm, empty]
  | some sum =>
      have nonempty : numbers.length ≠ 0 := by
        rintro none
        rw [List.length_eq_zero_iff.mp none] at total
        cases total
      rw [total, quotient, if_neg nonempty] at answered
      split at answered
      · have present : datum ≠ .null := by
          rintro rfl
          exact Datum.convert_present _ Datum.noConfusion target answered
        rw [if_neg present]
        exact ⟨sum, rfl, answered⟩
      · cases answered

/-- Whenever it is finished, an average answers the sum of every row folded since it was new over the number of those
folded since the last distinct finish began. These are the same rows as long as none was folded before such a
finish. -/
theorem average_divides [PowerFunction] (dataType target : DataType) (steps : List Step) (distinct : Bool) :
    let acc := (empty .average dataType).after steps
    let ended := steps ++ [.finish target distinct]
    let ledger := (empty .average dataType).ledger ⟨[], []⟩ ended
    let done := acc.finish target distinct
    ∃ numbers, Reads Datum.toDouble ledger.all numbers ∧
      done.2.running = (merged (· + ·) none numbers).map .double ∧
      done.2.count = ledger.recent.length ∧
      (done.1 = quotient (merged (· + ·) none numbers) ledger.recent.length target ∨
        ∃ failure, distinct = true ∧ acc.release.1 = .error failure ∧ done.1 = .error failure) ∧
      (done.2.count = numbers.length ↔ ledger.earlier = []) ∧
      (ledger.earlier = [] → AveragesAll numbers target done.1) ∧
      ((∀ step ∈ ended, ∀ other, step ≠ .finish other true) → ledger.earlier = []) := by
  intro acc ended ledger done
  obtain ⟨numbers, averages⟩ := ledger_averages _ _ _ ended (empty_averages dataType)
  rw [List.nil_append] at averages
  have final : (empty .average dataType).after ended = done.2 := by
    rw [after, List.foldl_append]
    rfl
  rw [final] at averages
  obtain ⟨kind, reads, running, size, _⟩ := averages
  have count : done.2.count = ledger.recent.length := size
  have length : numbers.length = ledger.earlier.length + ledger.recent.length :=
    (reads_length _ _ _ reads).trans List.length_append
  have answered := finish_answer acc target distinct
  rw [average_answer _ _ target kind running, count] at answered
  refine ⟨numbers, reads, running, count, answered, ?_, fun fresh => ?_, fun plain => ?_⟩
  · rw [← List.length_eq_zero_iff]
    omega
  · rw [fresh, List.length_nil, Nat.zero_add] at length
    rcases answered with quotient | ⟨failure, _, _, failed⟩
    · rw [quotient, ← length]
      exact quotient_averages numbers target
    · intro datum done
      rw [failed] at done
      cases done
  · exact ledger_earlier _ _ ended plain

theorem average_after_distinct :
    let steps := [.add (.integer 2) true, .finish .double true, .add (.integer 4) true]
    let done := ((empty .average .integer).after steps).finish .double true
    let ledger := (empty .average .integer).ledger ⟨[], []⟩ (steps ++ [.finish .double true])
    let numbers := [.ofInt 2, .ofInt 4]
    ledger.all = [.integer 2, .integer 4] ∧ Reads Datum.toDouble ledger.all numbers ∧
      done.1 = .ok (.double (.ofBits 0x4018000000000000)) ∧ done.2.count = 1 ∧
      ¬AveragesAll numbers .double done.1 := by
  intro steps done ledger numbers
  have rows : ledger.all = [.integer 2, .integer 4] := by decide +kernel
  have answer : done.1 = .ok (.double (.ofBits 0x4018000000000000)) := by decide +kernel
  have six : merged (· + ·) none numbers = some (Binary64.ofBits 0x4018000000000000) := by decide +kernel
  refine ⟨rows, by rw [rows]; rfl, answer, by decide +kernel, fun averages => ?_⟩
  obtain ⟨sum, total, mean⟩ := averages _ answer
  rw [six, Option.some.injEq] at total
  subst total
  revert mean
  decide +kernel

end Aggregation.Accumulator
