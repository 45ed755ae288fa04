import Mathlib
import Aggregation.Accumulator.Outcome
import Aggregation.Proofs.Datum.Ascending
import Aggregation.Proofs.Splice

set_option autoImplicit false

namespace Aggregation

def LastAlike (given : List Datum) (row : Datum) : Prop :=
  (given.filter fun other => other.Alike row).getLast? = some row

theorem last_alike_given (given : List Datum) (row : Datum) (last : LastAlike given row) :
    row ∈ given :=
  (List.mem_filter.mp (List.mem_of_getLast? last)).1

theorem last_alike_concat (given : List Datum) (fresh row : Datum) :
    LastAlike (given ++ [fresh]) row ↔ row = fresh ∨ LastAlike given row ∧ ¬fresh.Alike row := by
  rw [LastAlike, List.filter_append]
  by_cases alike : fresh.Alike row
  · rw [List.filter_cons_of_pos (by simpa using alike), List.filter_nil, List.getLast?_concat,
      Option.some.injEq]
    exact ⟨fun same => .inl same.symm, fun kept => (kept.resolve_right fun old => old.2 alike).symm⟩
  · rw [List.filter_cons_of_neg (by simpa using alike), List.filter_nil, List.append_nil]
    refine ⟨fun last => .inr ⟨last, alike⟩, fun kept => ?_⟩
    rcases kept with same | old
    · exact absurd (same ▸ Datum.alike_refl fresh) alike
    · exact old.1

-- One row for each class of alike rows, the last that was given, in strictly ascending order.
structure LastOfEach (given rows : List Datum) : Prop where
  ascending : Ascending id rows
  last_iff : ∀ row, row ∈ rows ↔ LastAlike given row

theorem ascending_nodup (rows : List Datum) (ascending : Ascending id rows) : rows.Nodup :=
  ascending.imp fun {x y} below (same : x = y) =>
    Datum.not_alike_of_below x y below (same ▸ Datum.alike_refl x)

theorem ascending_same_members (rows others : List Datum) (first : Ascending id rows)
    (second : Ascending id others) (same : ∀ row, row ∈ others ↔ row ∈ rows) : others = rows :=
  ascending_perm_eq id others rows second first
    ((List.perm_ext_iff_of_nodup (ascending_nodup _ second) (ascending_nodup _ first)).mpr same)

theorem last_of_each_unique (given rows others : List Datum) (first : LastOfEach given rows)
    (second : LastOfEach given others) : others = rows := by
  refine ascending_same_members rows others first.ascending second.ascending fun row => ?_
  rw [second.last_iff, first.last_iff]

theorem last_of_each_nil : LastOfEach [] [] where
  ascending := List.Pairwise.nil
  last_iff row := by simp [LastAlike]

theorem last_of_each_concat (given rows below above : List Datum) (fresh : Datum)
    (kept : LastOfEach given rows) (ascending : Ascending id (below ++ above))
    (less : ∀ x ∈ below, x.Below fresh) (greater : ∀ x ∈ above, fresh.Below x)
    (others : ∀ x, ¬fresh.Alike x → (x ∈ rows ↔ x ∈ below ++ above)) :
    LastOfEach (given ++ [fresh]) (below ++ fresh :: above) where
  ascending := ascending_insert id below above fresh ascending less greater
  last_iff row := by
    have apart := gap_absent id fresh (below ++ above) below above rfl less greater
    have old : row ∈ rows ∧ ¬fresh.Alike row ↔ row ∈ below ++ above := by
      refine ⟨fun kept => (others row kept.2).mp kept.1, fun inside => ?_⟩
      have other : ¬fresh.Alike row := fun alike => apart row inside (Datum.alike_symm _ _ alike)
      exact ⟨(others row other).mpr inside, other⟩
    rw [last_alike_concat, ← kept.last_iff, old]
    simp only [List.mem_append, List.mem_cons]
    exact or_left_comm

def SameClasses (values others : List Datum) : Prop :=
  (values.map Datum.rank).Perm (others.map Datum.rank)

theorem same_classes_exists (values others : List Datum) (same : SameClasses values others) (x : Datum)
    (inside : x ∈ values) : ∃ y ∈ others, x.Alike y := by
  have ranked := same.mem_iff.mp (List.mem_map_of_mem inside)
  obtain ⟨y, yIn, rank⟩ := List.mem_map.mp ranked
  exact ⟨y, yIn, (Datum.alike_iff x y).mpr rank.symm⟩

namespace Accumulator

inductive Held (held : Array Datum) (row : Datum) : Except DatumError (Array Datum) → Prop where
  | replaced (below : List Datum) (item : Datum) (above : List Datum)
      (split : held.toList = below ++ item :: above) (less : ∀ x ∈ below, x.Below row)
      (alike : item.Alike row) (greater : ∀ x ∈ above, row.Below x) :
      Held held row (.ok (below ++ row :: above).toArray)
  | inserted (below above : List Datum) (split : held.toList = below ++ above)
      (less : ∀ x ∈ below, x.Below row) (greater : ∀ x ∈ above, row.Below x) :
      Held held row (.ok (below ++ row :: above).toArray)
  | refused (item : Datum) (inside : item ∈ held.toList) (apart : ¬Datum.Comparable item row)
      (failure : DatumError) : Held held row (.error failure)

theorem hold_outcome (held : Array Datum) (row : Datum) (ascending : Ascending id held.toList) :
    Held held row (hold held row) := by
  have located := search_located id row held ascending
  simp only [id] at located
  rw [hold]
  generalize search (fun item => item.compare row) held = slot at located
  cases located with
  | hit below item above split less alike greater =>
      simp only [Except.map, set_at_split held below above item row split]
      exact .replaced below item above split less alike greater
  | gap below above split less greater =>
      simp only [Except.map, insert_at_split held below above row split]
      exact .inserted below above split less greater
  | refused item inside apart failure => exact .refused item inside apart failure

theorem hold_alike (held : Array Datum) (row : Datum) (ascending : Ascending id held.toList)
    (known : ∃ x ∈ held.toList, x.Alike row) :
    ∃ fresh, hold held row = .ok fresh ∧ Ascending id fresh.toList ∧
      SameClasses fresh.toList held.toList := by
  obtain ⟨x, inside, knownAlike⟩ := known
  have outcome := hold_outcome held row ascending
  generalize hold held row = result at outcome
  cases outcome with
  | replaced below item above split less alike greater =>
      have rank := (Datum.alike_iff item row).mp alike
      rw [split] at ascending
      have around := ascending.sublist ((List.sublist_cons_self item above).append_left below)
      refine ⟨_, rfl, ascending_insert id below above row around less greater, ?_⟩
      simp [SameClasses, split, rank]
  | inserted below above split less greater =>
      exact absurd knownAlike (gap_absent id row held.toList below above split less greater x inside)
  | refused item itemIn apart failure =>
      exact absurd knownAlike
        (refused_absent id row held.toList item ascending itemIn apart x inside)

theorem hold_fresh (held : Array Datum) (row : Datum) (ascending : Ascending id held.toList)
    (comparable : ∀ x ∈ held.toList, Datum.Comparable x row)
    (absent : ∀ x ∈ held.toList, ¬x.Alike row) :
    ∃ fresh, hold held row = .ok fresh ∧ Ascending id fresh.toList ∧
      fresh.toList.Perm (row :: held.toList) := by
  have outcome := hold_outcome held row ascending
  generalize hold held row = result at outcome
  cases outcome with
  | replaced below item above split less alike greater =>
      exact absurd alike (absent item (by simp [split]))
  | inserted below above split less greater =>
      rw [split] at ascending ⊢
      exact ⟨_, rfl, ascending_insert id below above row ascending less greater, List.perm_middle⟩
  | refused item inside apart failure => exact absurd (comparable item inside) apart

theorem hold_apart (held : Array Datum) (row : Datum) (ascending : Ascending id held.toList)
    (apart : ∃ x ∈ held.toList, ¬Datum.Comparable x row) :
    ∃ failure, hold held row = .error failure := by
  obtain ⟨x, inside, apart⟩ := apart
  have outcome := hold_outcome held row ascending
  generalize hold held row = result at outcome
  cases outcome with
  | replaced below item above split less alike greater =>
      exact absurd (hit_comparable id row _ below above item split less alike greater x inside) apart
  | inserted below above split less greater =>
      exact absurd (gap_comparable id row _ below above split less greater x inside) apart
  | refused item inside apart failure => exact ⟨failure, rfl⟩

theorem hold_last (given : List Datum) (held : Array Datum) (row : Datum)
    (kept : LastOfEach given held.toList) :
    (∃ fresh, hold held row = .ok fresh ∧ LastOfEach (given ++ [row]) fresh.toList ∧
        ∀ x ∈ held.toList, Datum.Comparable x row) ∨
      ∃ failure, hold held row = .error failure ∧ ∃ x ∈ held.toList, ¬Datum.Comparable x row := by
  have outcome := hold_outcome held row kept.ascending
  generalize hold held row = result at outcome
  cases outcome with
  | replaced below item above split less alike greater =>
      have ascending := kept.ascending
      rw [split] at ascending
      refine .inl ⟨_, rfl, ?_, hit_comparable id row _ below above item split less alike greater⟩
      refine last_of_each_concat given held.toList below above row kept
        (ascending.sublist ((List.sublist_cons_self item above).append_left below)) less greater
        fun x other => ?_
      have changed : x ≠ item := fun same => other (Datum.alike_symm _ _ (same ▸ alike))
      rw [split, List.mem_append, List.mem_append, List.mem_cons, or_iff_right changed]
  | inserted below above split less greater =>
      refine .inl ⟨_, rfl, ?_, gap_comparable id row _ below above split less greater⟩
      exact last_of_each_concat given held.toList below above row kept (split ▸ kept.ascending) less
        greater fun x _ => by rw [split]
  | refused item inside apart failure => exact .inr ⟨failure, rfl, item, inside, apart⟩

end Accumulator

end Aggregation
