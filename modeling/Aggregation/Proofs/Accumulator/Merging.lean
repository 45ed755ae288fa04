import Mathlib
import Aggregation.Proofs.Accumulator.Distinct
import Aggregation.Proofs.Datum.Reading

set_option autoImplicit false

namespace Aggregation.Accumulator

section Merge

variable {β : Type} (read : Datum → Except DatumError β) (shown : β → Datum) (merge : β → β → β)

def Reads (rows : List Datum) (readings : List β) : Prop :=
  rows.map read = readings.map .ok

def readable (rows : List Datum) : List Datum :=
  rows.takeWhile fun row => (read row).isOk

theorem readable_ok (row : Datum) (rows : List Datum) (reading : β) (answer : read row = .ok reading) :
    readable read (row :: rows) = row :: readable read rows :=
  List.takeWhile_cons_of_pos (by rw [answer]; rfl)

theorem readable_error (row : Datum) (rows : List Datum) (failure : DatumError)
    (answer : read row = .error failure) : readable read (row :: rows) = [] :=
  List.takeWhile_cons_of_neg (by rw [answer]; exact Bool.false_ne_true)

theorem reads_append (rows others : List Datum) (readings more : List β)
    (first : Reads read rows readings) (second : Reads read others more) :
    Reads read (rows ++ others) (readings ++ more) := by
  rw [Reads, List.map_append, List.map_append, first, second]

theorem reads_length (rows : List Datum) (readings : List β) (reads : Reads read rows readings) :
    readings.length = rows.length := by
  simpa using (congrArg List.length reads).symm

theorem reads_exists (rows : List Datum) (readable : ∀ row ∈ rows, ∃ reading, read row = .ok reading) :
    ∃ readings, Reads read rows readings := by
  induction rows with
  | nil => exact ⟨[], rfl⟩
  | cons row rows ih =>
      obtain ⟨reading, answer⟩ := readable row List.mem_cons_self
      obtain ⟨readings, reads⟩ := ih fun other later => readable other (List.mem_cons_of_mem _ later)
      refine ⟨reading :: readings, ?_⟩
      rw [Reads, List.map_cons, answer, reads, List.map_cons]

theorem reads_readable (rows : List Datum) (readings : List β) (reads : Reads read rows readings)
    (row : Datum) (inside : row ∈ rows) : ∃ reading, read row = .ok reading := by
  have listed : read row ∈ readings.map .ok := reads ▸ List.mem_map_of_mem inside
  obtain ⟨reading, _, answer⟩ := List.mem_map.mp listed
  exact ⟨reading, answer.symm⟩

theorem reads_whole (rows : List Datum) (readings : List β) (reads : Reads read rows readings) :
    readable read rows = rows := by
  apply List.takeWhile_eq_self_iff.mpr
  intro row inside
  obtain ⟨reading, answer⟩ := reads_readable read rows readings reads row inside
  rw [answer]
  rfl

theorem reads_mem (rows : List Datum) (readings : List β) (reads : Reads read rows readings)
    (reading : β) : reading ∈ readings ↔ ∃ row ∈ rows, read row = .ok reading := by
  have injective : Function.Injective (Except.ok (ε := DatumError) (α := β)) := fun _ _ same =>
    Except.ok.inj same
  rw [← List.mem_map_of_injective injective, ← reads, List.mem_map]

def merged (running : Option β) (readings : List β) : Option β :=
  (readings.map some).foldl (Option.merge merge) running

theorem merged_append (running : Option β) (readings more : List β) :
    merged merge running (readings ++ more) = merged merge (merged merge running readings) more := by
  simp [merged]

theorem merged_none (readings : List β) (unmerged : merged merge none readings = none) :
    readings = [] := by
  obtain empty | ⟨init, last, split⟩ := List.eq_nil_or_concat' readings
  · exact empty
  · rw [split, merged_append] at unmerged
    cases merged merge none init <;> simp [merged] at unmerged

theorem merged_same_members [Std.Commutative merge] [Std.Associative merge] [Std.IdempotentOp merge]
    (running : Option β) (readings others : List β) (same : ∀ x, x ∈ readings ↔ x ∈ others) :
    merged merge running readings = merged merge running others := by
  classical
  have members : ((readings.map some : List (Option β)) : Multiset (Option β)).dedup =
      ((others.map some : List (Option β)) : Multiset (Option β)).dedup := by
    refine Multiset.dedup_ext.mpr fun x => ?_
    simp only [Multiset.mem_coe, List.mem_map, same]
  rw [merged, merged, ← Multiset.coe_fold_l, ← Multiset.coe_fold_l, ← Multiset.fold_dedup_idem, members,
    Multiset.fold_dedup_idem]

def Merges (aggregate : Aggregate) (dataType : DataType) : Prop :=
  ∀ (acc : Accumulator) (row : Datum) (running : Option β), acc.aggregate = aggregate →
    acc.dataType = dataType → acc.running = running.map shown → row ≠ .null →
    acc.fold row = (read row).map fun reading =>
      { acc with
        count := acc.count + 1
        running := (Option.merge merge running (some reading)).map shown }

variable {read shown merge} {aggregate : Aggregate} {dataType : DataType}

theorem fold_all_merges (merges : Merges read shown merge aggregate dataType) (acc : Accumulator)
    (rows : List Datum) (running : Option β) (kind : acc.aggregate = aggregate)
    (type : acc.dataType = dataType) (kept : acc.running = running.map shown)
    (present : ∀ row ∈ rows, row ≠ .null) :
    ((acc.foldAll rows).1 = .ok () ↔ readable read rows = rows) ∧
      ∃ readings, Reads read (readable read rows) readings ∧
        (acc.foldAll rows).2 =
          { acc with
            count := acc.count + readings.length
            running := (merged merge running readings).map shown } := by
  have still : acc = { acc with running := (merged merge running []).map shown } := by
    rw [merged, List.map_nil, List.foldl_nil, ← kept]
  induction rows generalizing acc running with
  | nil => exact ⟨⟨fun _ => rfl, fun _ => rfl⟩, [], rfl, still⟩
  | cons row rows ih =>
      have one := merges acc row running kind type kept (present row List.mem_cons_self)
      rw [foldAll, one]
      cases answer : read row with
      | error failure =>
          rw [readable_error read row rows failure answer]
          exact ⟨by simp [Except.map], [], rfl, still⟩
      | ok reading =>
          rw [readable_ok read row rows reading answer]
          obtain ⟨whole, readings, reads, state⟩ := ih
            { acc with
              count := acc.count + 1
              running := (Option.merge merge running (some reading)).map shown }
            (Option.merge merge running (some reading)) kind type rfl
            (fun other later => present other (List.mem_cons_of_mem _ later)) rfl
          refine ⟨whole.trans (by simp), reading :: readings, ?_, state.trans ?_⟩
          · change read row :: List.map read _ = _
            rw [answer, reads]
            rfl
          · rw [List.length_cons, merged, merged, Nat.add_assoc, Nat.add_comm 1, List.map_cons,
              List.foldl_cons]

theorem keep_merged (acc : Accumulator) (running : Option β) (answer : Except DatumError β) :
    ((answer.map fun reading => shown (running.elim reading (merge · reading))).map fun kept =>
        { acc with count := acc.count + 1, running := some kept }) =
      answer.map fun reading =>
        { acc with
          count := acc.count + 1
          running := (Option.merge merge running (some reading)).map shown } := by
  cases answer with
  | error failure => rfl
  | ok reading => cases running <;> rfl

end Merge

section Aggregates

variable (row : Datum) (present : row ≠ .null)

include present

theorem boolean_with_merged (combine : Bool → Bool → Bool) (running : Option Bool) :
    booleanWith combine row (running.map .boolean) =
      row.toBoolean.map fun reading => .boolean (running.elim reading (combine · reading)) := by
  cases running with
  | none => exact Datum.convert_boolean row present
  | some before =>
      rw [Option.map_some, booleanWith, Datum.convert_boolean row present]
      cases row.toBoolean <;> rfl

theorem bits_with_merged (combine : Int64 → Int64 → Int64) (running : Option Int64) :
    bitsWith .integer combine row (running.map .integer) =
      row.toInteger.map fun reading => .integer (running.elim reading (combine · reading)) := by
  cases running with
  | none => exact Datum.convert_integer row present
  | some before =>
      rw [Option.map_some, bitsWith]
      cases row.toInteger <;> rfl

theorem sum_with_merged (running : Option Binary64) :
    sumWith .double row (running.map .double) =
      row.toDouble.map fun reading => .double (running.elim reading (· + reading)) := by
  cases running with
  | none => exact Datum.convert_double row present
  | some before =>
      change (row.convert .double).bind (Datum.double before).add = _
      rw [Datum.convert_double row present]
      cases row.toDouble <;> rfl

end Aggregates

theorem bool_and_merges (dataType : DataType) :
    Merges Datum.toBoolean .boolean (· && ·) .boolAnd dataType := by
  rintro ⟨⟩ row running ⟨⟩ _ ⟨⟩ present
  exact (congrArg _ (boolean_with_merged row present _ running)).trans (keep_merged _ running _)

theorem bool_or_merges (dataType : DataType) :
    Merges Datum.toBoolean .boolean (· || ·) .boolOr dataType := by
  rintro ⟨⟩ row running ⟨⟩ _ ⟨⟩ present
  exact (congrArg _ (boolean_with_merged row present _ running)).trans (keep_merged _ running _)

theorem bit_and_merges : Merges Datum.toInteger .integer (· &&& ·) .bitAnd .integer := by
  rintro ⟨⟩ row running ⟨⟩ ⟨⟩ ⟨⟩ present
  exact (congrArg _ (bits_with_merged row present _ running)).trans (keep_merged _ running _)

theorem bit_or_merges : Merges Datum.toInteger .integer (· ||| ·) .bitOr .integer := by
  rintro ⟨⟩ row running ⟨⟩ ⟨⟩ ⟨⟩ present
  exact (congrArg _ (bits_with_merged row present _ running)).trans (keep_merged _ running _)

theorem averaging_double (type : DataType) : type.averaging = .double := by cases type <;> rfl

theorem average_merges (dataType : DataType) :
    Merges Datum.toDouble .double (· + ·) .average dataType := by
  rintro ⟨_, type⟩ row running ⟨⟩ _ ⟨⟩ present
  have merging := sum_with_merged row present running
  rw [← averaging_double type] at merging
  exact (congrArg _ merging).trans (keep_merged _ running _)

end Aggregation.Accumulator
