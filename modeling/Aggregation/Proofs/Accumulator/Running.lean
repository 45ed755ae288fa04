import Mathlib
import Aggregation.Proofs.Accumulator.Folded
import Aggregation.Proofs.Accumulator.Merging

set_option autoImplicit false

namespace Aggregation

namespace Datum

open DatumError

theorem convert_type (a value : Datum) (target : DataType) (present : a ≠ .null)
    (converted : a.convert target = .ok value) : value.type? = some target := by
  cases target with
  | boolean =>
      rw [convert_boolean a present] at converted
      obtain ⟨b, _, rfl⟩ := mapped_ok _ _ _ converted
      rfl
  | integer =>
      rw [convert_integer a present] at converted
      obtain ⟨n, _, rfl⟩ := mapped_ok _ _ _ converted
      rfl
  | double =>
      rw [convert_double a present] at converted
      obtain ⟨x, _, rfl⟩ := mapped_ok _ _ _ converted
      rfl
  | text =>
      cases a with
      | null => exact absurd rfl present
      | _ =>
          cases converted
          rfl

theorem add_type (a b value : Datum) (type : DataType) (left : a.type? = some type)
    (right : b.type? = some type) (sum : a.add b = .ok value) : value.type? = some type := by
  cases a <;> cases left <;> cases b <;> cases right
  · cases sum
  · rw [add, ofExact] at sum
    split at sum <;> cases sum
    rfl
  · cases sum
    rfl
  · cases sum

def Unsummed (type : DataType) : Prop := type = .boolean ∨ type = .text

theorem add_unsummed (a b : Datum) (type : DataType) (unsummed : Unsummed type)
    (left : a.type? = some type) (right : b.type? = some type) :
    ∃ failure, a.add b = .error failure := by
  rcases unsummed with rfl | rfl <;> cases a <;> cases left <;> cases b <;> cases right <;>
    exact ⟨_, rfl⟩

theorem to_double_fails (row : Datum) (present : row ≠ .null) :
    (∃ failure, row.toDouble = .error failure) ↔
      ∃ s, row = .text s ∧ Text.readDouble? (Text.stripped s) = none := by
  cases row with
  | null => exact absurd rfl present
  | text s =>
      rw [toDouble]
      cases read : Text.readDouble? (Text.stripped s) <;> simp [notConvertible, read]
  | _ => simp [toDouble]

end Datum

namespace Accumulator

open DatumError

section Steps

variable (row value : Datum) (running : Option Datum)

theorem sum_with_type (seed : DataType) (present : row ≠ .null)
    (typed : ∀ total, running = some total → total.type? = some seed)
    (summed : sumWith seed row running = .ok value) : value.type? = some seed := by
  cases running with
  | none => exact Datum.convert_type row value seed present summed
  | some total =>
      have type := typed total rfl
      rw [sumWith, type, Option.getD_some] at summed
      obtain ⟨incoming, converted, added⟩ := bound_ok _ _ _ summed
      exact Datum.add_type total incoming value seed type
        (Datum.convert_type row incoming seed present converted) added

theorem select_with_given (wanted : Ordering) (selected : selectWith wanted row running = .ok value) :
    value = row ∨ running = some value := by
  cases running with
  | none =>
      cases selected
      exact .inl rfl
  | some best =>
      obtain ⟨order, _, chosen⟩ := mapped_ok _ _ _ selected
      split at chosen
      · exact .inl chosen.symm
      · exact .inr (congrArg some chosen)

theorem boolean_with_type (combine : Bool → Bool → Bool) (present : row ≠ .null)
    (combined : booleanWith combine row running = .ok value) : value.type? = some .boolean := by
  cases running with
  | none => exact Datum.convert_type row value .boolean present combined
  | some before =>
      obtain ⟨incoming, _, rest⟩ := bound_ok _ _ _ combined
      obtain ⟨a, _, rest⟩ := bound_ok _ _ _ rest
      obtain ⟨b, _, rfl⟩ := mapped_ok _ _ _ rest
      rfl

theorem bits_with_type (dataType : DataType) (combine : Int64 → Int64 → Int64) (present : row ≠ .null)
    (combined : bitsWith dataType combine row running = .ok value) : value.type? = some dataType := by
  cases running with
  | none => exact Datum.convert_type row value dataType present combined
  | some before =>
      obtain ⟨a, _, rest⟩ := bound_ok _ _ _ combined
      obtain ⟨b, _, converted⟩ := bound_ok _ _ _ rest
      exact Datum.convert_type _ value dataType (by simp) converted

end Steps

def Suits (aggregate : Aggregate) (dataType : DataType) (rows : List Datum) (value : Datum) : Prop :=
  match aggregate with
  | .sum | .bitAnd | .bitOr => value.type? = some dataType
  | .average => value.type? = some .double
  | .boolAnd | .boolOr => value.type? = some .boolean
  | .minimum | .maximum => value ∈ rows
  | _ => False

structure Runs (acc : Accumulator) (rows : List Datum) : Prop where
  present : ∀ row ∈ rows, row ≠ .null
  suits : ∀ value, acc.running = some value → Suits acc.aggregate acc.dataType rows value

theorem select_suits (wanted : Ordering) (rows : List Datum) (row value : Datum)
    (running : Option Datum) (given : ∀ best, running = some best → best ∈ rows)
    (selected : selectWith wanted row running = .ok value) : value ∈ rows ++ [row] := by
  rcases select_with_given row value running wanted selected with rfl | kept
  · exact List.mem_append_right _ (List.mem_singleton_self value)
  · exact List.mem_append_left _ (given value kept)

theorem fold_suits (acc next : Accumulator) (rows : List Datum) (row : Datum) (present : row ≠ .null)
    (suits : ∀ value, acc.running = some value → Suits acc.aggregate acc.dataType rows value)
    (folded : acc.fold row = .ok next) (value : Datum) (running : next.running = some value) :
    Suits next.aggregate next.dataType (rows ++ [row]) value := by
  obtain ⟨aggregate, dataType, count, before, moments, product, reciprocals, held⟩ := acc
  cases aggregate <;> obtain ⟨kept, answer, rfl⟩ := mapped_ok _ _ _ folded
  case sum =>
    cases running
    exact sum_with_type row value before dataType present suits answer
  case average =>
    cases running
    refine sum_with_type row value before .double present suits ?_
    rwa [← averaging_double dataType]
  case minimum =>
    cases running
    exact select_suits .lt rows row value before suits answer
  case maximum =>
    cases running
    exact select_suits .gt rows row value before suits answer
  case boolAnd =>
    cases running
    exact boolean_with_type row value before _ present answer
  case boolOr =>
    cases running
    exact boolean_with_type row value before _ present answer
  case bitAnd =>
    cases running
    exact bits_with_type row value before dataType _ present answer
  case bitOr =>
    cases running
    exact bits_with_type row value before dataType _ present answer
  all_goals exact suits value running

theorem runs_invariant : FoldInvariant Runs where
  frame _ _ _ _ runs := ⟨runs.present, runs.suits⟩
  fold acc next rows row present runs folded := by
    refine ⟨fun other inside => ?_, fold_suits acc next rows row present runs.suits folded⟩
    rcases List.mem_append.mp inside with before | last
    · exact runs.present other before
    · rwa [List.mem_singleton.mp last]

theorem suits_present (aggregate : Aggregate) (dataType : DataType) (rows : List Datum) (value : Datum)
    (present : ∀ row ∈ rows, row ≠ .null) (suits : Suits aggregate dataType rows value) :
    value ≠ .null := by
  rintro rfl
  cases aggregate with
  | minimum => exact present _ suits rfl
  | maximum => exact present _ suits rfl
  | _ => cases suits

theorem empty_runs (aggregate : Aggregate) (dataType : DataType) : Runs (empty aggregate dataType) [] :=
  ⟨by simp, fun value running => by cases running⟩

theorem average_fails (acc : Accumulator) (row : Datum) (kind : acc.aggregate = .average)
    (typed : ∀ value, acc.running = some value → value.type? = some .double) (present : row ≠ .null) :
    (∃ failure, (acc.add row false).1 = .error failure) ↔
      ∃ s, row = .text s ∧ Text.readDouble? (Text.stripped s) = none := by
  have double : ∃ total : Option Binary64, acc.running = total.map .double := by
    cases running : acc.running with
    | none => exact ⟨none, rfl⟩
    | some value =>
        have type := typed value running
        cases value <;> cases type
        exact ⟨some _, rfl⟩
  obtain ⟨total, running⟩ := double
  rw [← Datum.to_double_fails row present, add_plain acc row present,
    average_merges acc.dataType acc row total kind rfl running present]
  cases row.toDouble with
  | error failure => exact ⟨fun _ => ⟨failure, rfl⟩, fun _ => ⟨failure, rfl⟩⟩
  | ok x => simp [Except.map]

inductive Single (dataType : DataType) : Option Datum → List Datum → Prop where
  | unstarted : Single dataType none []
  | one (first seed : Datum) (present : first ≠ .null) (converted : first.convert dataType = .ok seed) :
      Single dataType (some seed) [first]

structure SingleSum (acc : Accumulator) (rows : List Datum) : Prop where
  kind : acc.aggregate = .sum
  unsummed : Datum.Unsummed acc.dataType
  single : Single acc.dataType acc.running rows

theorem fold_unsummed (acc : Accumulator) (row value : Datum) (kind : acc.aggregate = .sum)
    (unsummed : Datum.Unsummed acc.dataType) (present : row ≠ .null)
    (running : acc.running = some value) (type : value.type? = some acc.dataType) :
    ∃ failure, acc.fold row = .error failure := by
  obtain ⟨aggregate, dataType, count, before, moments, product, reciprocals, held⟩ := acc
  cases kind
  cases running
  change ∃ failure, ((row.convert (value.type?.getD dataType)).bind value.add).map _ = .error failure
  rw [type, Option.getD_some]
  cases converted : row.convert dataType with
  | error failure => exact ⟨failure, rfl⟩
  | ok incoming =>
      obtain ⟨failure, refused⟩ := Datum.add_unsummed value incoming dataType unsummed type
        (Datum.convert_type row incoming dataType present converted)
      exact ⟨failure, by rw [Except.bind, refused]; rfl⟩

theorem single_sum_full (acc : Accumulator) (first row : Datum) (single : SingleSum acc [first])
    (present : row ≠ .null) : ∃ failure, acc.fold row = .error failure := by
  obtain ⟨kind, unsummed, single⟩ := single
  generalize kept : acc.running = running at single
  cases single with
  | one first seed firstPresent converted =>
      exact fold_unsummed acc row seed kind unsummed present kept
        (Datum.convert_type first seed acc.dataType firstPresent converted)

theorem fold_first_sum (acc next : Accumulator) (row : Datum) (kind : acc.aggregate = .sum)
    (unstarted : acc.running = none) (folded : acc.fold row = .ok next) :
    ∃ seed, row.convert acc.dataType = .ok seed ∧ next.running = some seed := by
  obtain ⟨aggregate, dataType, count, before, moments, product, reciprocals, held⟩ := acc
  cases kind
  cases unstarted
  obtain ⟨seed, converted, rfl⟩ := mapped_ok _ _ _ folded
  exact ⟨seed, converted, rfl⟩

theorem single_sum_invariant : FoldInvariant SingleSum where
  frame _ _ _ _ single := ⟨single.kind, single.unsummed, single.single⟩
  fold acc next rows row present single folded := by
    obtain ⟨aggregate, dataType⟩ := fold_kind acc next row folded
    refine ⟨aggregate.trans single.kind, dataType ▸ single.unsummed, ?_⟩
    have whole := single
    obtain ⟨kind, unsummed, single⟩ := single
    generalize before : acc.running = running at single
    cases single with
    | unstarted =>
        obtain ⟨seed, converted, running⟩ := fold_first_sum acc next row kind before folded
        rw [dataType, running]
        exact .one row seed present converted
    | one first seed firstPresent converted =>
        obtain ⟨failure, failed⟩ := single_sum_full acc first row whole present
        rw [failed] at folded
        cases folded

theorem single_sum_length (acc : Accumulator) (rows : List Datum) (single : SingleSum acc rows) :
    rows.length ≤ 1 := by
  obtain ⟨kind, unsummed, single⟩ := single
  generalize acc.running = running at single
  cases single with
  | unstarted => exact Nat.zero_le 1
  | one first seed present converted => exact le_refl 1

theorem single_sum_answer [PowerFunction] (acc : Accumulator) (first : Datum) (single : SingleSum acc [first])
    (target : DataType) : acc.answer target = (first.convert acc.dataType).bind (·.convert target) := by
  obtain ⟨kind, unsummed, single⟩ := single
  generalize kept : acc.running = running at single
  cases single with
  | one first seed present converted =>
      rw [answer, outcome, kind, kept, converted]
      rfl

-- A sum that takes in no row any more and answers for its first row, or else fails over held rows.
structure Closed [PowerFunction] (acc : Accumulator) (first : Datum) : Prop where
  rejects : ∀ row, row ≠ .null → ∃ failure, acc.add row false = (.error failure, acc)
  folds : ∀ more, acc.foldedBy more = []
  answers : ∀ more target distinct,
    ((acc.after more).finish target distinct).1 =
        (first.convert acc.dataType).bind (·.convert target) ∨
      distinct = true ∧ ∃ failure, ((acc.after more).finish target distinct).1 = .error failure

theorem single_sum_closed [PowerFunction] (acc : Accumulator) (given : List Datum) (first : Datum)
    (holds : Holds acc given) (single : SingleSum acc [first]) : Closed acc first := by
  have later (more : List Step) : acc.foldedBy more = [] ∧ SingleSum (acc.after more) [first] := by
    have kept := after_invariant single_sum_invariant acc [first] given more holds single
    have nothing : acc.foldedBy more = [] := by
      have length := single_sum_length _ _ kept
      rw [List.length_append, List.length_singleton] at length
      exact List.length_eq_zero_iff.mp (by omega)
    rw [nothing] at kept
    exact ⟨nothing, kept⟩
  refine ⟨fun row present => ?_, fun more => (later more).1, fun more target distinct => ?_⟩
  · obtain ⟨failure, failed⟩ := single_sum_full acc first row single present
    exact ⟨failure, by rw [add_plain acc row present, failed]⟩
  · rcases finish_answer (acc.after more) target distinct with answered | ⟨failure, only, _, failed⟩
    · have finished := (later (more ++ [.finish target distinct])).2
      rw [after_append] at finished
      have type := (after_kind acc (more ++ [.finish target distinct])).2
      rw [after_append] at type
      rw [← type]
      exact .inl (answered.trans (single_sum_answer _ first finished target))
    · exact .inr ⟨only, failure, failed⟩

/-- After every run of steps the running value has the type its aggregate gives it, or is one of the folded rows. So an
average refuses only a text that is no number, and a sum over a type without sums folds one row in all. -/
theorem running_keeps_type [PowerFunction] (aggregate : Aggregate) (dataType : DataType) (steps : List Step) :
    let acc := (empty aggregate dataType).after steps
    let rows := (empty aggregate dataType).foldedBy steps
    (∀ value, acc.running = some value → value ≠ .null ∧ Suits aggregate dataType rows value) ∧
      (aggregate = .average → ∀ row, row ≠ .null →
        ((∃ failure, (acc.add row false).1 = .error failure) ↔
          ∃ s, row = .text s ∧ Text.readDouble? (Text.stripped s) = none)) ∧
      (aggregate = .sum → Datum.Unsummed dataType →
        rows.length ≤ 1 ∧ ∀ first ∈ rows, Closed acc first) := by
  intro acc rows
  have holds := run_holds _ _ steps (empty_holds aggregate dataType)
  obtain ⟨kind, type⟩ := after_kind (empty aggregate dataType) steps
  have start := empty_holds aggregate dataType
  have runs : Runs acc rows :=
    after_invariant runs_invariant _ [] [] steps start (empty_runs aggregate dataType)
  have suits : ∀ value, acc.running = some value → Suits aggregate dataType rows value := by
    have suits := runs.suits
    rwa [kind, type] at suits
  refine ⟨fun value running => ⟨?_, suits value running⟩, ?_, ?_⟩
  · exact suits_present aggregate dataType rows value runs.present (suits value running)
  · rintro rfl row present
    exact average_fails acc row kind suits present
  · rintro rfl unsummed
    have single : SingleSum acc rows := after_invariant single_sum_invariant _ [] [] steps start
      ⟨rfl, unsummed, .unstarted⟩
    have length := single_sum_length acc rows single
    refine ⟨length, fun first inside => ?_⟩
    obtain ⟨only, alone⟩ := List.length_eq_one_iff.mp
      (le_antisymm length (List.length_pos_of_mem inside))
    rw [alone] at single inside
    rw [List.mem_singleton.mp inside]
    exact single_sum_closed acc _ only holds single

theorem running_keeps_type_single :
    let steps := [.add (.integer 1) false, .add (.text "b") true, .finish .text true]
    let acc := (empty .sum .text).after steps
    let mean := (empty .average .text).after steps
    (empty .sum .text).foldedBy steps = [.integer 1] ∧ acc.running = some (.text "1") ∧
      Suits .sum .text [.integer 1] (.text "1") ∧ Closed acc (.integer 1) ∧
      mean.running = some (.double .one) ∧ ∃ failure, (mean.add (.text "b") false).1 = .error failure := by
  intro steps acc mean
  have rows : (empty .sum .text).foldedBy steps = [.integer 1] := by decide +kernel
  have running : acc.running = some (.text "1") := by decide +kernel
  obtain ⟨suits, _, sums⟩ := running_keeps_type .sum .text steps
  obtain ⟨_, averages, _⟩ := running_keeps_type .average .text steps
  rw [rows] at suits sums
  exact ⟨rows, running, (suits _ running).2, (sums rfl (.inr rfl)).2 _ List.mem_cons_self,
    by decide +kernel, (averages rfl (.text "b") (by simp)).mpr ⟨"b", rfl, by decide +kernel⟩⟩

end Accumulator

end Aggregation
