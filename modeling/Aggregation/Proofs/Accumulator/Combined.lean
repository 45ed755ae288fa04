import Mathlib
import Aggregation.Proofs.Accumulator.ExactSum
import Aggregation.Proofs.Accumulator.Idempotent

set_option autoImplicit false

namespace Aggregation

namespace Word

def meet (words : List Int64) : Int64 :=
  words.foldl (· &&& ·) (-1)

def join (words : List Int64) : Int64 :=
  words.foldl (· ||| ·) 0

end Word

theorem foldl_and (start : Bool) (flags : List Bool) :
    flags.foldl (· && ·) start = (start && flags.all id) := by
  induction flags generalizing start with
  | nil => simp
  | cons flag flags ih => simp [ih, Bool.and_assoc]

theorem foldl_or (start : Bool) (flags : List Bool) :
    flags.foldl (· || ·) start = (start || flags.any id) := by
  induction flags generalizing start with
  | nil => simp
  | cons flag flags ih => simp [ih, Bool.or_assoc]

namespace Accumulator

section Merge

variable {β : Type} (read : Datum → Except DatumError β) (shown : β → Datum) (merge : β → β → β)

def told (row : Datum) : Except DatumError Reply :=
  if row.isNull then .ok .added else (read row).map fun _ => .added

def gleaned (rows : List Datum) : List β :=
  (withoutNull rows).filterMap fun row => (read row).toOption

theorem gleaned_perm (rows others : List Datum) (perm : others.Perm rows) :
    (gleaned read others).Perm (gleaned read rows) :=
  (perm.filter _).filterMap _

theorem gleaned_null (rows : List Datum) : gleaned read (.null :: rows) = gleaned read rows := rfl

theorem gleaned_cons (row : Datum) (rows : List Datum) (present : row ≠ .null) :
    gleaned read (row :: rows) = (read row).toOption.toList ++ gleaned read rows := by
  rw [gleaned, without_null_cons row rows present, List.filterMap_cons]
  cases (read row).toOption <;> rfl

theorem merged_perm [Std.Commutative merge] [Std.Associative merge] (running : Option β)
    (values others : List β) (perm : others.Perm values) :
    merged merge running others = merged merge running values := by
  rw [merged, merged, ← Multiset.coe_fold_l, ← Multiset.coe_fold_l,
    Multiset.coe_eq_coe.mpr (perm.map some)]

theorem merged_total (neutral : β) (left : ∀ x, merge neutral x = x) (values : List β) :
    merged merge none values = if values.isEmpty then none else some (values.foldl merge neutral) := by
  have later (start : β) (values : List β) :
      merged merge (some start) values = some (values.foldl merge start) := by
    induction values generalizing start with
    | nil => rfl
    | cons value values ih => exact ih (merge start value)
  cases values with
  | nil => rfl
  | cons value values =>
      rw [List.isEmpty_cons, if_neg Bool.false_ne_true, List.foldl_cons, left]
      exact later value values

structure Keeps (aggregate : Aggregate) (dataType : DataType) (acc : Accumulator) (values : List β) :
    Prop where
  kind : acc.aggregate = aggregate
  type : acc.dataType = dataType
  count : acc.count = values.length
  running : acc.running = (merged merge none values).map shown

-- What a row does to a state that stands for some values: it is refused and changes nothing, or its value
-- joins them.
inductive Kept (stands : Accumulator → List β → Prop) (acc : Accumulator) (values : List β) (row : Datum) :
    Except DatumError Unit × Accumulator → Prop where
  | refused (failure : DatumError) (answer : read row = .error failure) :
      Kept stands acc values row (.error failure, acc)
  | taken (value : β) (next : Accumulator) (answer : read row = .ok value)
      (joined : stands next (values ++ [value])) : Kept stands acc values row (.ok (), next)

variable {read} in
theorem fed_kept [PowerFunction] (stands : Accumulator → List β → Prop)
    (step : ∀ acc values row, row ≠ .null → stands acc values →
      Kept read stands acc values row (acc.add row false))
    (acc : Accumulator) (values : List β) (rows : List Datum) (start : stands acc values) :
    (acc.run (rows.map (.add · false))).map (·.1) = rows.map (told read) ∧
      Reads read (acc.accepted rows) (gleaned read rows) ∧
      stands (acc.fed rows false) (values ++ gleaned read rows) := by
  induction rows generalizing acc values with
  | nil =>
      rw [gleaned, withoutNull, List.filter_nil, List.filterMap_nil, List.append_nil]
      exact ⟨rfl, rfl, start⟩
  | cons row rows ih =>
      rw [accepted_cons, fed_cons, List.map_cons, run, perform, List.map_cons, List.map_cons, told]
      by_cases null : row = .null
      · obtain ⟨answers, reads, final⟩ := ih acc values start
        rw [null, add_null, gleaned_null]
        exact ⟨congrArg _ answers, reads, final⟩
      · have kept := step acc values row null start
        rw [gleaned_cons read row rows null, if_neg (mt (is_null_iff row).mp null)]
        generalize acc.add row false = result at kept
        cases kept with
        | refused failure answer =>
            obtain ⟨answers, reads, final⟩ := ih acc values start
            rw [answer]
            exact ⟨congrArg _ answers, reads, final⟩
        | taken value next answer joined =>
            obtain ⟨answers, reads, final⟩ := ih next _ joined
            have first : withoutNull [row] = [row] := without_null_cons row [] null
            rw [answer]
            refine ⟨congrArg _ answers, ?_, ?_⟩
            · change Reads read (withoutNull [row] ++ next.accepted rows) ([value] ++ gleaned read rows)
              rw [first]
              exact reads_append _ _ _ _ _ (by rw [Reads, List.map_singleton, answer]; rfl) reads
            · rwa [List.append_assoc] at final

structure Combines [PowerFunction] (total : List β → β) (start : Accumulator) (target : DataType) (rows : List Datum) :
    Prop where
  answers : (start.run (rows.map (.add · false))).map (·.1) = rows.map (told read)
  combined : ∃ values, Reads read (start.accepted rows) values ∧
    (start.fed rows false).count = values.length ∧
    ((start.fed rows false).finish target false).1 =
      .ok (if values.isEmpty then .null else shown (total values))
  order : ∀ others, others.Perm rows →
    ((start.fed others false).finish target false).1 = ((start.fed rows false).finish target false).1

variable {read shown merge} {aggregate : Aggregate} {dataType : DataType}
  (merges : Merges read shown merge aggregate dataType)

theorem keeps_answer [PowerFunction] (acc : Accumulator) (values : List β) (target : DataType)
    (idempotent : Idempotent aggregate dataType target)
    (own : ∀ value, (shown value).convert target = .ok (shown value))
    (keeps : Keeps shown merge aggregate dataType acc values) :
    (acc.finish target false).1 = .ok ((merged merge none values).elim .null shown) := by
  change acc.answer target = _
  have answered := idempotent_answer acc target (by rw [keeps.kind, keeps.type]; exact idempotent)
  rw [answered, keeps.running]
  cases merged merge none values with
  | none => rfl
  | some value => exact own value

include merges

theorem add_keeps (acc : Accumulator) (values : List β) (row : Datum) (present : row ≠ .null)
    (keeps : Keeps shown merge aggregate dataType acc values) :
    Kept read (Keeps shown merge aggregate dataType) acc values row (acc.add row false) := by
  rw [add_plain acc row present, merges acc row _ keeps.kind keeps.type keeps.running present]
  cases answer : read row with
  | error failure => exact .refused failure answer
  | ok value =>
      refine .taken value _ answer ⟨keeps.kind, keeps.type, ?_, ?_⟩
      · simp [keeps.count]
      · rw [merged_append]
        rfl

theorem fed_combines [PowerFunction] [Std.Commutative merge] [Std.Associative merge] (neutral : β)
    (left : ∀ value, merge neutral value = value) (target : DataType)
    (idempotent : Idempotent aggregate dataType target)
    (own : ∀ value, (shown value).convert target = .ok (shown value)) (rows : List Datum) :
    Combines read shown (·.foldl merge neutral) (empty aggregate dataType) target rows := by
  have start : Keeps shown merge aggregate dataType (empty aggregate dataType) [] := ⟨rfl, rfl, rfl, rfl⟩
  have fed (given : List Datum) := fed_kept _ (add_keeps merges) _ [] given start
  have finished (given : List Datum) := keeps_answer _ _ target idempotent own (fed given).2.2
  obtain ⟨answers, reads, keeps⟩ := fed rows
  refine ⟨answers, ⟨gleaned read rows, reads, keeps.count, ?_⟩, fun others perm => ?_⟩
  · rw [finished, List.nil_append, merged_total merge neutral left]
    cases (gleaned read rows).isEmpty <;> rfl
  · have same := merged_perm merge none _ _ (gleaned_perm read rows others perm)
    rw [finished, finished, List.nil_append, List.nil_append, same]

end Merge

/-- An aggregate over booleans or the bits of integers takes in just the rows that can be read, whatever came before,
and answers their meet or join, whatever their order. -/
theorem rows_combined [PowerFunction] (rows : List Datum) :
    (∀ dataType,
      Combines Datum.toBoolean .boolean (·.all id) (empty .boolAnd dataType) .boolean rows ∧
        Combines Datum.toBoolean .boolean (·.any id) (empty .boolOr dataType) .boolean rows) ∧
      Combines Datum.toInteger .integer Word.meet (empty .bitAnd .integer) .integer rows ∧
      Combines Datum.toInteger .integer Word.join (empty .bitOr .integer) .integer rows := by
  have all : (fun flags : List Bool => flags.all id) = (·.foldl (· && ·) true) := by
    funext flags
    rw [foldl_and, Bool.true_and]
  have any : (fun flags : List Bool => flags.any id) = (·.foldl (· || ·) false) := by
    funext flags
    rw [foldl_or, Bool.false_or]
  refine ⟨fun dataType => ⟨?_, ?_⟩, ?_, ?_⟩
  · rw [all]
    exact fed_combines (bool_and_merges dataType) true Bool.true_and .boolean (.boolAnd _ _)
      (fun _ => rfl) rows
  · rw [any]
    exact fed_combines (bool_or_merges dataType) false Bool.false_or .boolean (.boolOr _ _)
      (fun _ => rfl) rows
  · exact fed_combines bit_and_merges (-1) (by simp) .integer (.bitAnd _) (fun _ => rfl) rows
  · exact fed_combines bit_or_merges 0 (by simp) .integer (.bitOr _) (fun _ => rfl) rows

example :
    let rows := [.text "b", .double (.ofBits 0x402a000000000000), .null, .text " 7 ", .double .nan,
      .integer (-3)]
    (((empty .bitAnd .integer).fed rows false).finish .integer false).1 = .ok (.integer 5) := by
  decide +kernel

end Accumulator

end Aggregation
