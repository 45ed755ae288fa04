import Mathlib
import Aggregation.Proofs.Accumulator.Extreme
import Aggregation.Proofs.SortedBag.Positions

set_option autoImplicit false

namespace Aggregation

inductive Grows (values : List Datum) (row : Datum) : Bool → List Datum → Prop where
  | alike (known : ∃ x ∈ values, row.Alike x) : Grows values row true values
  | fresh (grown : List Datum) (comparable : ∀ x ∈ values, Datum.Comparable x row)
      (absent : ∀ x ∈ values, ¬row.Alike x) (perm : grown.Perm (row :: values)) :
      Grows values row true grown
  | refused (apart : ∃ x ∈ values, ¬Datum.Comparable x row) : Grows values row false values

namespace SortedBag

def values (bag : SortedBag) : List Datum :=
  bag.entries.toList.map (·.value)

theorem put_grows (bag : SortedBag) (row : Datum) (sound : bag.Sound) :
    Grows bag.values row (bag.put row).1 (bag.put row).2.values ∧
      (bag.put row).2.size = bag.size + (bag.put row).1.toNat := by
  have outcome := put_outcome bag row sound
  generalize bag.put row = result at outcome
  cases outcome with
  | raised below item above split less alike greater =>
      have known : ∃ x ∈ bag.values, row.Alike x := by
        refine ⟨item.value, ?_, Datum.alike_symm _ _ alike⟩
        simp [values, split]
      have same : bag.values =
          (below ++ { item with count := item.count + 1 } :: above).map (·.value) := by
        simp [values, split]
      refine ⟨?_, rfl⟩
      change Grows bag.values row true
        ((below ++ { item with count := item.count + 1 } :: above).map (·.value))
      rw [← same]
      exact .alike known
  | inserted below above split less greater =>
      refine ⟨.fresh _ ?_ ?_ ?_, rfl⟩
      · exact List.forall_mem_map.mpr (gap_comparable Entry.value row _ below above split less greater)
      · refine List.forall_mem_map.mpr fun entry inside alike => ?_
        exact gap_absent Entry.value row _ below above split less greater entry inside
          (Datum.alike_symm _ _ alike)
      · rw [values, values, split, List.toList_toArray]
        exact (List.perm_middle.map _)
  | refused item inside apart =>
      exact ⟨.refused ⟨item.value, List.mem_map_of_mem inside, apart⟩, rfl⟩

structure Filling (bag : SortedBag) : Prop extends Sound bag where
  collecting : bag.isFrozen = false
  present : ∀ x ∈ bag.values, x ≠ .null

theorem empty_filling : empty.Filling where
  toSound := empty_valid.toSound
  collecting := rfl
  present := by simp [values, empty]

theorem filling_put (bag : SortedBag) (row : Datum) (filling : bag.Filling) (present : row ≠ .null) :
    (bag.put row).2.Filling where
  toSound := sound_put bag row filling.toSound
  collecting := by
    rw [isFrozen, put_phase, ← isFrozen]
    exact filling.collecting
  present := by
    obtain ⟨grows, _⟩ := put_grows bag row filling.toSound
    have old := filling.present
    generalize (bag.put row).1 = flag, (bag.put row).2.values = grown at grows
    cases grows with
    | alike known => exact old
    | fresh grown comparable absent perm =>
        intro x inside
        rcases List.mem_cons.mp (perm.mem_iff.mp inside) with rfl | before
        · exact present
        · exact old x before
    | refused apart => exact old

theorem add_filling (bag : SortedBag) (row : Datum) (filling : bag.Filling) :
    bag.add row = (.ok (bag.put row).1, (bag.put row).2) := by
  rw [add, change, if_neg (by simp [filling.collecting])]

theorem put_filled (bag : SortedBag) (row : Datum) (sound : bag.Sound) : (bag.put row).2.values ≠ [] := by
  obtain ⟨grows, _⟩ := put_grows bag row sound
  generalize (bag.put row).1 = flag, (bag.put row).2.values = grown at grows
  cases grows with
  | alike known =>
      obtain ⟨x, inside, _⟩ := known
      exact List.ne_nil_of_mem inside
  | fresh grown comparable absent perm =>
      exact List.ne_nil_of_mem (perm.mem_iff.mpr List.mem_cons_self)
  | refused apart =>
      obtain ⟨x, inside, _⟩ := apart
      exact List.ne_nil_of_mem inside

def fed (bag : SortedBag) (rows : List Datum) : SortedBag :=
  bag.after (rows.map .add)

end SortedBag

namespace Accumulator

def fed [PowerFunction] (acc : Accumulator) (rows : List Datum) (distinct : Bool) : Accumulator :=
  acc.after (rows.map (.add · distinct))

def taken [PowerFunction] (acc : Accumulator) (rows : List Datum) (distinct : Bool) : List Bool :=
  (acc.run (rows.map (.add · distinct))).map (·.1.isOk)

structure Tracks (wanted : Ordering) (acc : Accumulator) (values : List Datum) (size : Nat) : Prop where
  selects : Selects acc.aggregate wanted
  extreme : Extreme wanted values acc.running
  count : acc.count = size

theorem tracks_step (wanted : Ordering) (acc : Accumulator) (values grown : List Datum) (size : Nat)
    (row : Datum) (flag : Bool) (tracks : Tracks wanted acc values size)
    (grows : Grows values row flag grown) (nonnull : ∀ x ∈ values, x ≠ .null) (present : row ≠ .null) :
    (acc.add row false).1.isOk = flag ∧
      Tracks wanted (acc.add row false).2 grown (size + flag.toNat) := by
  obtain ⟨selects, extreme, count⟩ := tracks
  have strict := selects_strict acc.aggregate wanted selects
  rw [add_plain acc row present, fold_selects acc row wanted selects]
  cases grows with
  | alike known =>
      obtain ⟨best, running, selected⟩ := select_alike wanted values acc.running row extreme known
      rw [running] at extreme
      rw [selected]
      exact ⟨rfl, selects, extreme, congrArg (· + 1) count⟩
  | fresh grown comparable absent perm =>
      obtain ⟨best, selected, next⟩ := select_fresh wanted values acc.running row strict extreme
        comparable grown fun x => perm.mem_iff.trans List.mem_cons
      rw [selected]
      exact ⟨rfl, selects, next, congrArg (· + 1) count⟩
  | refused apart =>
      obtain ⟨failure, failed⟩ := select_apart wanted values acc.running row extreme nonnull apart
      rw [failed]
      exact ⟨rfl, selects, extreme, count⟩

structure Mirrors (acc : Accumulator) (values : List Datum) : Prop where
  minimum : acc.aggregate = .minimum
  unstarted : acc.running = none
  ascending : Ascending id acc.held.toList
  same : SameClasses acc.held.toList values

theorem mirrors_step (acc : Accumulator) (values grown : List Datum) (row : Datum) (flag : Bool)
    (mirrors : Mirrors acc values) (grows : Grows values row flag grown) (present : row ≠ .null) :
    (acc.add row true).1.isOk = flag ∧ Mirrors (acc.add row true).2 grown := by
  obtain ⟨minimum, unstarted, ascending, same⟩ := mirrors
  rw [add_distinct acc row present]
  cases grows with
  | alike known =>
      obtain ⟨x, inside, alike⟩ := known
      obtain ⟨y, yIn, xAlike⟩ := same_classes_exists _ _ same.symm x inside
      obtain ⟨fresh, held, next, classes⟩ := hold_alike acc.held row ascending
        ⟨y, yIn, Datum.alike_symm _ _ (Datum.alike_trans _ _ _ alike xAlike)⟩
      rw [held]
      exact ⟨rfl, minimum, unstarted, next, classes.trans same⟩
  | fresh grown comparable absent perm =>
      obtain ⟨fresh, held, next, added⟩ := hold_fresh acc.held row ascending
        (fun y yIn => by
          obtain ⟨x, inside, alike⟩ := same_classes_exists _ _ same y yIn
          exact (Datum.comparable_congr y x row alike).mpr (comparable x inside))
        fun y yIn also => by
          obtain ⟨x, inside, alike⟩ := same_classes_exists _ _ same y yIn
          exact absent x inside (Datum.alike_trans _ _ _ (Datum.alike_symm _ _ also) alike)
      rw [held]
      refine ⟨rfl, minimum, unstarted, next, ?_⟩
      exact (added.map Datum.rank).trans ((same.cons row.rank).trans (perm.map Datum.rank).symm)
  | refused apart =>
      obtain ⟨x, inside, apart⟩ := apart
      obtain ⟨y, yIn, alike⟩ := same_classes_exists _ _ same.symm x inside
      obtain ⟨failure, failed⟩ := hold_apart acc.held row ascending
        ⟨y, yIn, mt (Datum.comparable_congr x y row alike).mpr apart⟩
      rw [failed]
      exact ⟨rfl, minimum, unstarted, ascending, same⟩

theorem mirrors_finish [PowerFunction] (acc : Accumulator) (values : List Datum) (target : DataType)
    (mirrors : Mirrors acc values) : (acc.finish target true).2.count = values.length := by
  have released : acc.release.1 = .ok () :=
    fold_all_minimum acc.emptied acc.held.toList mirrors.minimum mirrors.ascending
      fun best running => by
        rw [emptied, mirrors.unstarted] at running
        cases running
  have count := (fold_all_frame acc.emptied acc.held.toList).2 released
  have length : acc.held.toList.length = values.length := by
    simpa using mirrors.same.length_eq
  rw [finish_state]
  exact count.trans ((Nat.zero_add _).trans length)

theorem taken_cons [PowerFunction] (acc : Accumulator) (row : Datum) (rows : List Datum) (distinct : Bool) :
    acc.taken (row :: rows) distinct =
      (acc.add row distinct).1.isOk :: (acc.add row distinct).2.taken rows distinct := by
  rw [taken, List.map_cons, run, List.map_cons, perform]
  generalize acc.add row distinct = added
  obtain ⟨answer, after⟩ := added
  cases answer <;> rfl

theorem fed_in_step [PowerFunction] (distinct : Bool) (related : Accumulator → SortedBag → Prop)
    (step : ∀ acc bag row, related acc bag → row ≠ .null →
      (bag.add row).1 = .ok (acc.add row distinct).1.isOk ∧
        related (acc.add row distinct).2 (bag.add row).2)
    (acc : Accumulator) (bag : SortedBag) (rows : List Datum) (start : related acc bag)
    (present : ∀ row ∈ rows, row ≠ .null) :
    (bag.run (rows.map .add)).map (·.1) =
        (acc.taken rows distinct).map (fun taken => .ok (.flag taken)) ∧
      related (acc.fed rows distinct) (bag.fed rows) := by
  induction rows generalizing acc bag with
  | nil => exact ⟨rfl, start⟩
  | cons row rows ih =>
      obtain ⟨answer, next⟩ := step acc bag row start (present row List.mem_cons_self)
      obtain ⟨answers, final⟩ := ih _ _ next fun other later =>
        present other (List.mem_cons_of_mem _ later)
      refine ⟨?_, final⟩
      rw [List.map_cons, SortedBag.run, List.map_cons, SortedBag.perform, taken_cons, List.map_cons,
        answer, answers]
      rfl

theorem tracks_in_step (wanted : Ordering) (acc : Accumulator) (bag : SortedBag) (row : Datum)
    (related : bag.Filling ∧ Tracks wanted acc bag.values bag.size) (present : row ≠ .null) :
    (bag.add row).1 = .ok (acc.add row false).1.isOk ∧
      (bag.add row).2.Filling ∧
        Tracks wanted (acc.add row false).2 (bag.add row).2.values (bag.add row).2.size := by
  obtain ⟨filling, tracks⟩ := related
  obtain ⟨grows, size⟩ := SortedBag.put_grows bag row filling.toSound
  obtain ⟨flag, next⟩ := tracks_step wanted acc _ _ _ row _ tracks grows filling.present present
  rw [SortedBag.add_filling bag row filling, flag]
  exact ⟨rfl, SortedBag.filling_put bag row filling present, size ▸ next⟩

theorem mirrors_in_step (acc : Accumulator) (bag : SortedBag) (row : Datum)
    (related : bag.Filling ∧ Mirrors acc bag.values) (present : row ≠ .null) :
    (bag.add row).1 = .ok (acc.add row true).1.isOk ∧
      (bag.add row).2.Filling ∧ Mirrors (acc.add row true).2 (bag.add row).2.values := by
  obtain ⟨filling, mirrors⟩ := related
  obtain ⟨grows, _⟩ := SortedBag.put_grows bag row filling.toSound
  obtain ⟨flag, next⟩ := mirrors_step acc _ _ row _ mirrors grows present
  rw [SortedBag.add_filling bag row filling, flag]
  exact ⟨rfl, SortedBag.filling_put bag row filling present, next⟩

end Accumulator

namespace SortedBag

theorem fed_filled (bag : SortedBag) (rows : List Datum) (filling : bag.Filling)
    (present : ∀ row ∈ rows, row ≠ .null) (nonempty : rows ≠ [] ∨ bag.values ≠ []) :
    (bag.fed rows).values ≠ [] := by
  induction rows generalizing bag with
  | nil => exact nonempty.resolve_left (absurd rfl)
  | cons row rows ih =>
      have next := filling_put bag row filling (present row List.mem_cons_self)
      have filled := put_filled bag row filling.toSound
      rw [fed, List.map_cons, after, List.foldl_cons, perform, add_filling bag row filling]
      exact ih _ next (fun other later => present other (List.mem_cons_of_mem _ later)) (.inr filled)

theorem least_first (head : Entry) (tail : List Entry) (best : Datum)
    (ascending : Ascending Entry.value (head :: tail))
    (extreme : Extreme .lt ((head :: tail).map (·.value)) (some best)) : best = head.value := by
  obtain ⟨bestIn, least⟩ := extreme
  obtain ⟨order, answer, notLess⟩ := least head.value List.mem_cons_self
  rcases List.mem_cons.mp bestIn with same | later
  · exact same
  · obtain ⟨entry, inside, rfl⟩ := List.mem_map.mp later
    have below : head.value.compare entry.value = .ok .lt := (List.pairwise_cons.mp ascending).1 entry inside
    rw [below, Except.ok.injEq] at answer
    exact absurd answer.symm notLess

theorem greatest_last (init : List Entry) (last : Entry) (best : Datum)
    (ascending : Ascending Entry.value (init ++ [last]))
    (extreme : Extreme .gt ((init ++ [last]).map (·.value)) (some best)) : best = last.value := by
  obtain ⟨bestIn, greatest⟩ := extreme
  obtain ⟨order, answer, notMore⟩ := greatest last.value (by simp)
  rw [List.map_append, List.map_singleton] at bestIn
  rcases List.mem_append.mp bestIn with earlier | same
  · obtain ⟨entry, inside, rfl⟩ := List.mem_map.mp earlier
    have below := (List.pairwise_append.mp ascending).2.2 entry inside last List.mem_cons_self
    rw [(Datum.compare_gt_iff _ _).mpr below, Except.ok.injEq] at answer
    exact absurd answer.symm notMore
  · exact List.mem_singleton.mp same

theorem first_agrees (bag : SortedBag) (filling : bag.Filling) (filled : bag.values ≠ [])
    (running : Option Datum) (extreme : Extreme .lt bag.values running) :
    ∃ least, running = some least ∧ bag.freeze.2.get 0 = .ok least := by
  have sound := filling.toSound
  rw [freeze_collecting bag filling.collecting]
  rw [values] at extreme filled
  cases running with
  | none => exact absurd extreme filled
  | some best =>
      cases split : bag.entries.toList with
      | nil => simp [split] at filled
      | cons head tail =>
          rw [split] at extreme
          rw [least_first head tail best (split ▸ sound.ascending) extreme]
          exact ⟨_, rfl, get_first _ head tail (sound_phase bag _ sound) rfl split⟩

theorem last_agrees (bag : SortedBag) (filling : bag.Filling) (filled : bag.values ≠ [])
    (running : Option Datum) (extreme : Extreme .gt bag.values running) :
    ∃ greatest, running = some greatest ∧ bag.freeze.2.get (bag.freeze.2.size - 1) = .ok greatest := by
  have sound := filling.toSound
  rw [freeze_collecting bag filling.collecting]
  rw [values] at extreme filled
  cases running with
  | none => exact absurd extreme filled
  | some best =>
      obtain empty | ⟨init, last, split⟩ := List.eq_nil_or_concat' bag.entries.toList
      · simp [empty] at filled
      · rw [split] at extreme
        rw [greatest_last init last best (split ▸ sound.ascending) extreme]
        exact ⟨_, rfl, get_last _ init last (sound_phase bag _ sound) rfl split⟩

end SortedBag

theorem same_flags (left right : List Bool) (answers : List (Except BagError SortedBag.Reply))
    (first : answers = left.map fun taken => .ok (.flag taken))
    (second : answers = right.map fun taken => .ok (.flag taken)) : left = right := by
  refine List.map_injective_iff.mpr (fun a b same => ?_) (first.symm.trans second)
  cases same
  rfl

/-- Given the same rows, a minimum, a maximum, a distinct minimum and a bag take in the same of them, count alike, and
show the same values at either end. -/
theorem order_paths_agree [PowerFunction] (lowType highType heldType : DataType) (rows : List Datum)
    (present : ∀ row ∈ rows, row ≠ .null) :
    let low := Accumulator.empty .minimum lowType
    let high := Accumulator.empty .maximum highType
    let held := Accumulator.empty .minimum heldType
    let bag := SortedBag.empty.fed rows
    (low.taken rows false = high.taken rows false ∧ low.taken rows false = held.taken rows true ∧
        (SortedBag.empty.run (rows.map .add)).map (·.1) =
          (low.taken rows false).map fun taken => .ok (.flag taken)) ∧
      ((low.fed rows false).count = bag.size ∧ (high.fed rows false).count = bag.size ∧
        ∀ target, ((held.fed rows true).finish target true).2.count = bag.entries.size) ∧
      (bag.freeze.1 = .ok () ∧ bag.freeze.2.size = bag.size ∧ bag.freeze.2.entries = bag.entries) ∧
      (rows ≠ [] → ∃ least greatest,
        (low.fed rows false).running = some least ∧ bag.freeze.2.get 0 = .ok least ∧
        (high.fed rows false).running = some greatest ∧
        bag.freeze.2.get (bag.freeze.2.size - 1) = .ok greatest ∧
        ∀ target, ((low.fed rows false).finish target false).1 = least.convert target ∧
          ((high.fed rows false).finish target false).1 = greatest.convert target) := by
  intro low high held bag
  obtain ⟨lowTaken, filling, lowTracks⟩ := Accumulator.fed_in_step false _
    (Accumulator.tracks_in_step .lt) low SortedBag.empty rows
    ⟨SortedBag.empty_filling, .minimum, rfl, rfl⟩ present
  obtain ⟨highTaken, _, highTracks⟩ := Accumulator.fed_in_step false _
    (Accumulator.tracks_in_step .gt) high SortedBag.empty rows
    ⟨SortedBag.empty_filling, .maximum, rfl, rfl⟩ present
  obtain ⟨heldTaken, _, mirrors⟩ := Accumulator.fed_in_step true _ Accumulator.mirrors_in_step held
    SortedBag.empty rows ⟨SortedBag.empty_filling, rfl, rfl, List.Pairwise.nil, List.Perm.nil⟩ present
  refine ⟨⟨same_flags _ _ _ lowTaken highTaken, same_flags _ _ _ lowTaken heldTaken, lowTaken⟩,
    ⟨lowTracks.count, highTracks.count, fun target => ?_⟩, ?_, fun nonempty => ?_⟩
  · rw [Accumulator.mirrors_finish _ _ target mirrors, SortedBag.values, List.length_map,
      Array.length_toList]
  · rw [SortedBag.freeze_collecting bag filling.collecting]
    exact ⟨rfl, rfl, rfl⟩
  · have filled := SortedBag.fed_filled _ rows SortedBag.empty_filling present (.inl nonempty)
    obtain ⟨least, lowest, first⟩ := SortedBag.first_agrees bag filling filled _ lowTracks.extreme
    obtain ⟨greatest, highest, last⟩ := SortedBag.last_agrees bag filling filled _ highTracks.extreme
    exact ⟨least, greatest, lowest, first, highest, last, fun target =>
      ⟨Accumulator.selected_answer _ .lt least target lowTracks.selects lowest,
        Accumulator.selected_answer _ .gt greatest target highTracks.selects highest⟩⟩

theorem order_paths_agree_mixed :
    let rows := [.integer 2, .double .one, .text "a", .integer 1, .boolean true, .double (.ofNat 2)]
    let low := Accumulator.empty .minimum .integer
    let high := Accumulator.empty .maximum .integer
    let bag := SortedBag.empty.fed rows
    (∀ row ∈ rows, row ≠ .null) ∧ rows ≠ [] ∧
      low.taken rows false = [true, true, false, true, false, true] ∧
      high.taken rows false = [true, true, false, true, false, true] ∧
      bag.freeze.2.get 0 = .ok (.double .one) ∧
      bag.freeze.2.get (bag.freeze.2.size - 1) = .ok (.integer 2) := by
  intro rows low high bag
  have present : ∀ row ∈ rows, row ≠ .null := by decide +kernel
  have nonempty : rows ≠ [] := List.cons_ne_nil _ _
  obtain ⟨⟨flags, _, _⟩, _, _, ends⟩ := order_paths_agree .integer .integer .text rows present
  obtain ⟨least, greatest, lowest, first, highest, last, _⟩ := ends nonempty
  have taken : low.taken rows false = [true, true, false, true, false, true] := by decide +kernel
  have least_eq : (low.fed rows false).running = some (.double .one) := by decide +kernel
  have greatest_eq : (high.fed rows false).running = some (.integer 2) := by decide +kernel
  rw [least_eq, Option.some.injEq] at lowest
  rw [greatest_eq, Option.some.injEq] at highest
  exact ⟨present, nonempty, taken, flags ▸ taken, lowest ▸ first, highest ▸ last⟩

end Aggregation
