import Mathlib
import Aggregation.Proofs.Accumulator.Idempotent
import Aggregation.Proofs.Datum.Numbers

set_option autoImplicit false

namespace Aggregation.Accumulator

open Datum

theorem taken_folded [PowerFunction] (acc : Accumulator) (rows : List Datum) (present : ∀ row ∈ rows, row ≠ .null)
    (done : (acc.foldAll rows).1 = .ok ()) : ∀ flag ∈ acc.taken rows false, flag = true := by
  induction rows generalizing acc with
  | nil => exact fun flag inside => absurd inside List.not_mem_nil
  | cons row rows ih =>
      obtain ⟨first, rest⟩ := List.forall_mem_cons.mp present
      rw [foldAll] at done
      rw [taken_cons, List.forall_mem_cons, add_plain acc row first]
      cases folded : acc.fold row with
      | error failure => simp [folded] at done
      | ok next =>
          rw [folded] at done
          exact ⟨rfl, ih next rest done⟩

theorem covered_extreme (wanted : Ordering) (given rows : List Datum) (best : Datum) (covers : Covers given rows)
    (extreme : Extreme wanted rows (some best)) : Extreme wanted given (some best) := by
  refine ⟨covers.inside best extreme.1, fun row inside => ?_⟩
  obtain ⟨other, otherIn, alike⟩ := covers.alike row inside
  obtain ⟨order, answer, notBefore⟩ := extreme.2 other otherIn
  exact ⟨order, compare_congr row other best order alike answer, notBefore⟩

theorem folded_extreme [PowerFunction] (acc : Accumulator) (wanted : Ordering) (rows : List Datum) (target : DataType)
    (selects : Selects acc.aggregate wanted) (unstarted : acc.running = none) (nonempty : rows ≠ [])
    (comparable : ∀ x ∈ rows, ∀ y ∈ rows, Comparable x y) :
    (acc.foldAll rows).1 = .ok () ∧
      ∃ best, Extreme wanted rows (some best) ∧ (acc.foldAll rows).2.answer target = best.convert target := by
  have start : Extreme wanted [] acc.running := by rw [unstarted, Extreme]
  obtain ⟨done, extreme⟩ := fold_all_selects acc wanted [] rows selects start comparable
  obtain ⟨kind, _⟩ := fold_all_kind acc rows
  rw [List.nil_append] at extreme
  cases running : (acc.foldAll rows).2.running with
  | none =>
      rw [running] at extreme
      exact absurd extreme nonempty
  | some best =>
      rw [running] at extreme
      exact ⟨done, best, extreme, selected_answer _ wanted best target (kind ▸ selects) running⟩

theorem fed_extreme [PowerFunction] (aggregate : Aggregate) (wanted : Ordering) (selects : Selects aggregate wanted)
    (dataType target : DataType) (rows : List Datum) (distinct : Bool) (nonempty : rows ≠ [])
    (present : ∀ row ∈ rows, row ≠ .null) (comparable : ∀ x ∈ rows, ∀ y ∈ rows, Comparable x y) :
    (∀ flag ∈ (empty aggregate dataType).taken rows distinct, flag = true) ∧
      ∃ best, Extreme wanted rows (some best) ∧
        (((empty aggregate dataType).fed rows distinct).finish target distinct).1 = best.convert target := by
  cases distinct with
  | false =>
      obtain ⟨done, best, extreme, answer⟩ :=
        folded_extreme (empty aggregate dataType) wanted rows target selects rfl nonempty comparable
      have accepted := taken_folded _ rows present done
      rw [fed_plain _ rows present accepted] at answer
      exact ⟨accepted, best, extreme, answer⟩
  | true =>
      obtain ⟨flags, held, state, holds⟩ :=
        fed_distinct _ [] rows (empty_holds aggregate dataType) comparable
      have all : withoutNull rows = rows := List.filter_eq_self.mpr fun row inside => by
        rw [Bool.not_eq_true', ← Bool.not_eq_true, is_null_iff]
        exact present row inside
      rw [List.nil_append, all, state] at holds
      have covers := last_of_each_covers rows held.toList holds.kept
      have kept : held.toList ≠ [] := by
        obtain ⟨row, inside⟩ := List.exists_mem_of_ne_nil rows nonempty
        obtain ⟨other, otherIn, _⟩ := covers.alike row inside
        exact List.ne_nil_of_mem otherIn
      obtain ⟨done, best, extreme, answer⟩ :=
        folded_extreme (empty aggregate dataType) wanted held.toList target selects rfl kept
          fun x xIn y yIn => comparable x (covers.inside x xIn) y (covers.inside y yIn)
      refine ⟨fun flag inside => ?_, best, covered_extreme wanted rows held.toList best covers extreme, ?_⟩
      · rw [flags] at inside
        obtain ⟨_, _, same⟩ := List.mem_map.mp inside
        exact same.symm
      · rw [state, finish_released { empty aggregate dataType with held := held } target done]
        exact answer

section Numbers

variable (rows : List Datum) (numbers : ∀ row ∈ rows, row.standing?.isSome)

include numbers

theorem numbers_comparable : ∀ x ∈ rows, ∀ y ∈ rows, Comparable x y := by
  intro x xIn y yIn
  obtain ⟨s, left⟩ := Option.isSome_iff_exists.mp (numbers x xIn)
  obtain ⟨t, right⟩ := Option.isSome_iff_exists.mp (numbers y yIn)
  exact (comparable_iff x y).mpr ⟨_, compare_standing x y s t left right⟩

theorem extreme_integer (wanted : Ordering) (words : List Int64) (best : Datum)
    (converted : rows.map (·.toInteger) = words.map .ok) (extreme : Extreme wanted rows (some best)) :
    ∃ m ∈ words, best.toInteger = .ok m ∧
      (wanted = .lt → ∀ n ∈ words, m.toInt ≤ n.toInt) ∧ (wanted = .gt → ∀ n ∈ words, n.toInt ≤ m.toInt) := by
  obtain ⟨bestIn, first⟩ := extreme
  obtain ⟨m, inside, read⟩ := List.mem_map.mp (converted ▸ List.mem_map_of_mem bestIn)
  obtain ⟨s, left⟩ := Option.isSome_iff_exists.mp (numbers best bestIn)
  have others (n : Int64) (member : n ∈ words) :
      ∃ (row : Datum) (t : Standing), row.standing? = some t ∧ row.toInteger = .ok n ∧ cmp t s ≠ wanted := by
    have listed : Except.ok n ∈ rows.map (·.toInteger) := converted ▸ List.mem_map_of_mem member
    obtain ⟨row, rowIn, answer⟩ := List.mem_map.mp listed
    obtain ⟨t, right⟩ := Option.isSome_iff_exists.mp (numbers row rowIn)
    obtain ⟨order, compared, other⟩ := first row rowIn
    rw [compare_standing row best t s right left, Except.ok.injEq] at compared
    exact ⟨row, t, right, answer, compared ▸ other⟩
  refine ⟨m, inside, read.symm, ?_, ?_⟩
  · rintro rfl n member
    obtain ⟨row, t, right, answer, other⟩ := others n member
    rw [Ne, cmp_eq_lt_iff, not_lt] at other
    exact to_integer_mono best row s t left right other m n read.symm answer
  · rintro rfl n member
    obtain ⟨row, t, right, answer, other⟩ := others n member
    rw [Ne, cmp_eq_gt_iff, not_lt] at other
    exact to_integer_mono row best t s right left other n m answer read.symm

end Numbers

/-- A finite double is read as the whole number nearest to it, a half away from zero, if that is a word. This keeps the
order of numbers, and so the minimum and the maximum of numbers are answered as those of their integers. -/
theorem numbers_converted [PowerFunction] :
    (∀ x : Binary64,
      (∀ q, x.standing = .ofRat q → ∃ k, NearestWhole q k ∧ (∀ other, NearestWhole q other → other = k) ∧
        (Word.least ≤ k → k ≤ Word.greatest → ∃ n, (double x).toInteger = .ok n ∧ n.toInt = k) ∧
        (k < Word.least ∨ Word.greatest < k → (double x).toInteger = .error .overflow)) ∧
      (x.isFinite = false → (double x).toInteger = .error .overflow)) ∧
    (∀ a b : Datum, a.standing?.isSome → b.standing?.isSome → AtMost a b →
      (∃ x y, a.convert .double = .ok (.double x) ∧ b.convert .double = .ok (.double y) ∧
        AtMost (.double x) (.double y)) ∧
      ∀ m n, a.convert .integer = .ok (.integer m) → b.convert .integer = .ok (.integer n) →
        a.toInteger = .ok m ∧ b.toInteger = .ok n ∧ m.toInt ≤ n.toInt) ∧
    ∀ (dataType : DataType) (rows : List Datum) (words : List Int64) (distinct : Bool), rows ≠ [] →
      (∀ row ∈ rows, row.standing?.isSome) → rows.map (·.toInteger) = words.map .ok →
      let answer (aggregate : Aggregate) :=
        (((empty aggregate dataType).fed rows distinct).finish .integer distinct).1
      (∀ aggregate ∈ [Aggregate.minimum, .maximum],
        ∀ flag ∈ (empty aggregate dataType).taken rows distinct, flag = true) ∧
      (∃ m : Int64, answer .minimum = .ok (.integer m) ∧ (words.map (·.toInt)).min? = some m.toInt) ∧
      ∃ m : Int64, answer .maximum = .ok (.integer m) ∧ (words.map (·.toInt)).max? = some m.toInt := by
  refine ⟨double_read, converted_in_order, fun dataType rows words distinct nonempty numbers converted => ?_⟩
  have present : ∀ row ∈ rows, row ≠ .null := fun row inside => present_of_number row (numbers row inside)
  have comparable := numbers_comparable rows numbers
  obtain ⟨minFlags, least, leastFirst, minAnswer⟩ :=
    fed_extreme .minimum .lt .minimum dataType .integer rows distinct nonempty present comparable
  obtain ⟨maxFlags, greatest, greatestFirst, maxAnswer⟩ :=
    fed_extreme .maximum .gt .maximum dataType .integer rows distinct nonempty present comparable
  obtain ⟨low, lowIn, lowRead, lowest, _⟩ := extreme_integer rows numbers .lt words least converted leastFirst
  obtain ⟨high, highIn, highRead, _, highest⟩ :=
    extreme_integer rows numbers .gt words greatest converted greatestFirst
  refine ⟨?_, ⟨low, ?_, ?_⟩, high, ?_, ?_⟩
  · simp only [List.mem_cons, List.not_mem_nil, or_false]
    rintro aggregate (rfl | rfl)
    · exact minFlags
    · exact maxFlags
  · exact minAnswer.trans (by rw [convert_integer least (present least leastFirst.1), lowRead]; rfl)
  · exact List.min?_eq_some_iff.mpr ⟨List.mem_map_of_mem lowIn, List.forall_mem_map.mpr (lowest rfl)⟩
  · exact maxAnswer.trans (by rw [convert_integer greatest (present greatest greatestFirst.1), highRead]; rfl)
  · exact List.max?_eq_some_iff.mpr ⟨List.mem_map_of_mem highIn, List.forall_mem_map.mpr (highest rfl)⟩

theorem numbers_converted_close :
    let half := Binary64.ofBits 0x4004000000000000
    let rows : List Datum :=
      [.integer 9007199254740993, .double (.ofBits 0x4340000000000001), .double (.ofBits 0x4340000000000000)]
    let answer (aggregate : Aggregate) :=
      (((empty aggregate .integer).fed rows true).finish .integer true).1
    half.standing = .ofRat (5 / 2) ∧ (double half).toInteger = .ok 3 ∧
      (double (.infinity false)).toInteger = .error .overflow ∧
      AtMost (.double (.ofBits 0x4340000000000000)) (.integer 9007199254740993) ∧
      (∃ x y, (double (.ofBits 0x4340000000000000)).convert .double = .ok (.double x) ∧
        (integer 9007199254740993).convert .double = .ok (.double y) ∧ AtMost (.double x) (.double y)) ∧
      (∀ row ∈ rows, row.standing?.isSome) ∧
      (∃ m : Int64, answer .minimum = .ok (.integer m) ∧ m.toInt = 9007199254740992) ∧
      ∃ m : Int64, answer .maximum = .ok (.integer m) ∧ m.toInt = 9007199254740994 := by
  intro half rows answer
  obtain ⟨read, ordered, ends⟩ := numbers_converted
  have form : half = .finite false ⟨0x4004000000000000, by decide⟩ := by decide +kernel
  have stands : half.standing = .ofRat (5 / 2) := by
    rw [form, Binary64.standing, Binary64.value]
    norm_num
  obtain ⟨k, nearest, unique, inside, _⟩ := (read half).1 _ stands
  have three : k = 3 :=
    (unique 3 (.of_floor (5 / 2) 3 (by norm_num) (by norm_num) (by norm_num))).symm
  obtain ⟨n, integer, whole⟩ := inside (by rw [three]; decide) (by rw [three]; decide)
  have word : n = 3 := Int64.toInt.inj (whole.trans three)
  have order : AtMost (.double (.ofBits 0x4340000000000000)) (.integer 9007199254740993) :=
    ⟨.lt, by decide +kernel, by decide⟩
  obtain ⟨doubles, _⟩ := ordered _ _ rfl rfl order
  have numbers : ∀ row ∈ rows, row.standing?.isSome := by
    simp only [rows, List.forall_mem_cons]
    exact ⟨rfl, rfl, rfl, fun _ none => absurd none List.not_mem_nil⟩
  obtain ⟨_, ⟨low, lowAnswer, least⟩, high, highAnswer, greatest⟩ :=
    ends .integer rows [9007199254740993, 9007199254740994, 9007199254740992] true (List.cons_ne_nil _ _) numbers
      (by decide +kernel)
  refine ⟨stands, word ▸ integer, (read _).2 rfl, order, doubles, numbers, ⟨low, lowAnswer, ?_⟩, high,
    highAnswer, ?_⟩
  · exact (Option.some.inj (least.symm.trans (by decide)))
  · exact (Option.some.inj (greatest.symm.trans (by decide)))

end Aggregation.Accumulator
