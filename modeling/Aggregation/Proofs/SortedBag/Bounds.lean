import Mathlib
import Aggregation.Proofs.SortedBag.Guarded
import Aggregation.Proofs.SortedBag.Positions

set_option autoImplicit false

namespace Aggregation

namespace Guarded

def fits {α : Type} (done : α × SortedBag) : Guarded (α × SortedBag) :=
  if done.2.size < 2 ^ 64 then .ok done else .error .overflow

section Words

variable {α β : Type}

theorem ok_bind (a : α) (next : α → Guarded β) : ((.ok a : Guarded α) >>= next) = next a := rfl

theorem item_at_present (items : Array α) (index : Nat) (item : α) (present : items[index]? = some item) :
    itemAt items index = .ok item := by
  rw [itemAt, present]

theorem plus_room (m n : Nat) (room : m + n < 2 ^ 64) : plus m n = .ok (m + n) :=
  if_pos room

theorem plus_full (m n : Nat) (full : ¬m + n < 2 ^ 64) : plus m n = .error .overflow :=
  if_neg full

theorem minus_within (m n : Nat) (within : n ≤ m) : minus m n = .ok (m - n) :=
  if_pos within

end Words

theorem run_ends_guarded (start : Nat) (lengths : List Nat) (room : start + lengths.sum < 2 ^ 64) :
    runEnds start lengths = .ok (RunTable.runEnds start lengths) := by
  induction lengths generalizing start with
  | nil => rfl
  | cons length lengths ih =>
      rw [List.sum_cons, ← Nat.add_assoc] at room
      rw [runEnds, plus_room start length (by omega), ok_bind, ih _ room]
      rfl

section Changes

variable (bag : SortedBag) (value : Datum) (sound : bag.Sound)

include sound

theorem entry_count_le (entry : Entry) (inside : entry ∈ bag.entries.toList) : entry.count ≤ bag.size := by
  rw [sound.size_eq]
  exact List.le_sum_of_mem (List.mem_map_of_mem inside)

theorem count_of_guarded : countOf bag value = .ok (bag.countOf value) := by
  have located := SortedBag.locate_located bag value sound
  rw [countOf, SortedBag.countOf]
  generalize bag.locate value = slot at located
  cases located with
  | hit below item above split less alike greater =>
      have found := item_at_split bag.entries below above item split
      simp only [item_at_present _ _ item found, found]
      rfl
  | gap below above split less greater => rfl
  | refused item inside apart failure => rfl

theorem put_guarded (few : bag.size < 2 ^ 64) : put bag value = fits (bag.put value) := by
  have located := SortedBag.locate_located bag value sound
  rw [put, SortedBag.put]
  generalize bag.locate value = slot at located
  cases located with
  | hit below item above split less alike greater =>
      have count := entry_count_le bag sound item (by simp [split])
      simp only [item_at_present _ _ item (item_at_split bag.entries below above item split), ok_bind,
        modify_at_split bag.entries below above item _ split,
        set_at_split bag.entries below above item _ split]
      by_cases room : bag.size + 1 < 2 ^ 64
      · rw [fits, if_pos room, plus_room bag.size 1 room, plus_room item.count 1 (by omega)]
        rfl
      · -- The counter of the entry can be full only where that of the bag is.
        rw [fits, if_neg room, plus_full bag.size 1 room]
        by_cases counted : item.count + 1 < 2 ^ 64
        · rw [plus_room item.count 1 counted]
          rfl
        · rw [plus_full item.count 1 counted]
          rfl
  | gap below above split less greater =>
      have inside : below.length ≤ bag.entries.size := by
        rw [← Array.length_toList, split, List.length_append]
        exact Nat.le_add_right _ _
      simp only [insertAt, if_pos inside, ok_bind]
      by_cases room : bag.size + 1 < 2 ^ 64
      · rw [fits, if_pos room, plus_room bag.size 1 room]
        rfl
      · rw [fits, if_neg room, plus_full bag.size 1 room]
        rfl
  | refused item inside apart failure => exact (if_pos few).symm

theorem take_guarded (few : bag.size < 2 ^ 64) : take bag value = fits (bag.take value) := by
  have located := SortedBag.locate_located bag value sound
  rw [take, SortedBag.take]
  generalize bag.locate value = slot at located
  cases located with
  | hit below item above split less alike greater =>
      have found := item_at_split bag.entries below above item split
      have inside : item ∈ bag.entries.toList := by simp [split]
      have one := sound.occurring item inside
      have count := entry_count_le bag sound item inside
      have room : bag.size - 1 < 2 ^ 64 := by omega
      have within : below.length < bag.entries.size := (Array.getElem?_eq_some_iff.mp found).1
      rw [if_neg (by omega), fits, if_pos room, minus_within bag.size 1 (by omega)]
      simp only [dropAt, item_at_present _ _ item found, found, ok_bind, Option.any_some]
      by_cases more : 1 < item.count
      · simp only [more, decide_true, if_true, minus_within item.count 1 one, ok_bind,
          modify_at_split bag.entries below above item _ split,
          set_at_split bag.entries below above item _ split]
        rfl
      · simp only [more, decide_false, Bool.false_eq_true, if_false, eraseAt, if_pos within]
        rfl
  | gap below above split less greater =>
      rw [fits, if_pos few]
      exact ite_self _
  | refused item inside apart failure =>
      rw [fits, if_pos few]
      exact ite_self _

end Changes

section Each

variable (act : SortedBag → Datum → Bool × SortedBag) (guarded : SortedBag → Datum → Guarded (Bool × SortedBag))
  (agree : ∀ bag value, bag.Sound → bag.size < 2 ^ 64 → guarded bag value = fits (act bag value))
  (keeps : ∀ bag value, bag.Sound → (act bag value).2.Sound)
  (fills : ∀ bag value values, bag.size < 2 ^ 64 → ¬(act bag value).2.size < 2 ^ 64 →
    ¬((act bag value).2.withEach act values).2.size < 2 ^ 64)

include agree keeps fills

theorem each_guarded (values : List Datum) (bag : SortedBag) (sound : bag.Sound)
    (few : bag.size < 2 ^ 64) : withEach guarded bag values = fits (bag.withEach act values) := by
  induction values generalizing bag with
  | nil => exact (if_pos few).symm
  | cons value values ih =>
      rw [withEach, agree bag value sound few]
      by_cases room : (act bag value).2.size < 2 ^ 64
      · rw [fits, if_pos room, ok_bind, ih _ (keeps bag value sound) room, fits]
        rw [fits, SortedBag.withEach]
        split <;> rfl
      · have full := fills bag value values few room
        rw [fits, if_neg room, fits, SortedBag.withEach, if_neg full]
        rfl

end Each

theorem put_grows_size (bag : SortedBag) (value : Datum) : bag.size ≤ (bag.put value).2.size := by
  rw [SortedBag.put]
  split
  · exact Nat.le_succ _
  · exact Nat.le_succ _
  · exact Nat.le_refl _

theorem put_each_grows_size (bag : SortedBag) (values : List Datum) :
    bag.size ≤ (bag.withEach SortedBag.put values).2.size := by
  induction values generalizing bag with
  | nil => exact Nat.le_refl _
  | cons value values ih => exact (put_grows_size bag value).trans (ih _)

theorem take_shrinks_size (bag : SortedBag) (value : Datum) : (bag.take value).2.size ≤ bag.size := by
  rw [SortedBag.take]
  split
  · exact Nat.sub_le _ _
  · exact Nat.le_refl _

theorem put_each_guarded (values : List Datum) (bag : SortedBag) (sound : bag.Sound)
    (few : bag.size < 2 ^ 64) : withEach put bag values = fits (bag.withEach SortedBag.put values) := by
  refine each_guarded SortedBag.put put put_guarded SortedBag.sound_put ?_ values bag sound few
  intro bag value values _ full room
  have grown := put_each_grows_size (bag.put value).2 values
  omega

theorem take_each_guarded (values : List Datum) (bag : SortedBag) (sound : bag.Sound)
    (few : bag.size < 2 ^ 64) : withEach take bag values = fits (bag.withEach SortedBag.take values) := by
  refine each_guarded SortedBag.take take take_guarded SortedBag.sound_take ?_ values bag sound few
  intro bag value values few full
  have shrunk := take_shrinks_size bag value
  omega

theorem change_guarded (bag : SortedBag) (changed : Bool × SortedBag) (few : bag.size < 2 ^ 64) :
    change bag (fits changed) = fits (bag.change changed) := by
  rw [change, SortedBag.change]
  by_cases frozen : bag.isFrozen = true
  · rw [if_pos frozen, if_pos frozen, fits, if_pos few]
  · rw [if_neg frozen, if_neg frozen, fits, fits]
    split <;> rfl

theorem flagged_fits (done : Except BagError Bool × SortedBag) :
    flagged (fits done) = fits (done.1.map .flag, done.2) := by
  rw [flagged, fits, fits]
  split <;> rfl

theorem freeze_guarded (bag : SortedBag) (sound : bag.Sound) (few : bag.size < 2 ^ 64) :
    freeze bag = .ok bag.freeze := by
  have room : 0 + bag.counts.sum < 2 ^ 64 := by
    rw [Nat.zero_add, ← sound.size_eq]
    exact few
  rw [freeze, SortedBag.freeze]
  split
  · rfl
  · simp only
    rw [← SortedBag.counts, run_ends_guarded 0 _ room]
    rfl

section Reads

variable (bag : SortedBag)

theorem read_guarded (reading : RunTable → Guarded (Except BagError Datum))
    (plain : RunTable → Except BagError Datum)
    (agree : ∀ table, bag.phase = .frozen table → reading table = .ok (plain table)) :
    read bag reading = .ok (bag.table.bind plain) := by
  rw [read, SortedBag.table]
  cases phase : bag.phase with
  | collecting => rfl
  | frozen table => exact agree table phase

theorem entry_value_guarded (run : Nat) (inside : run < bag.counts.length) :
    ∃ entry, bag.entries[run]? = some entry ∧ entryValue bag run = .ok (.ok entry.value) := by
  rw [SortedBag.counts, List.length_map, Array.length_toList] at inside
  refine ⟨bag.entries[run], Array.getElem?_eq_getElem inside, ?_⟩
  rw [entryValue, item_at_present bag.entries run _ (Array.getElem?_eq_getElem inside)]
  rfl

variable (valid : bag.Valid)

include valid

theorem get_guarded (index : Nat) : get bag index = .ok (bag.get index) := by
  refine read_guarded bag _ _ fun table phase => ?_
  cases owner : table.owner? index with
  | none => rfl
  | some run =>
      rw [valid.laid table phase] at owner
      obtain ⟨entry, found, value⟩ :=
        entry_value_guarded bag run (RunTable.owner_inside _ _ _ owner)
      simp only [value, Option.bind_some, found]

theorem mode_guarded : mode bag = .ok bag.mode := by
  have plain : bag.mode = bag.table.bind fun table =>
      .ok ((table.mode.bind (bag.entries[·]?)).elim .null (·.value)) := by
    rw [SortedBag.mode]
    cases bag.table <;> rfl
  rw [plain]
  refine read_guarded bag _ _ fun table phase => ?_
  cases chosen : table.mode with
  | none => rfl
  | some run =>
      rw [valid.laid table phase] at chosen
      obtain ⟨entry, found, value⟩ :=
        entry_value_guarded bag run (RunTable.mode_inside _ _ chosen)
      simp only [value, Option.bind_some, found, Option.elim_some]

theorem median_guarded : median bag = .ok bag.median := by
  refine read_guarded bag _ _ fun table phase => ?_
  by_cases unfilled : bag.size = 0
  · rw [if_pos unfilled, if_pos unfilled]
  · rw [if_neg unfilled, if_neg unfilled, minus_within bag.size 1 (by omega), ok_bind,
      get_guarded bag valid]

theorem percentile_guarded (fraction : Binary64) :
    percentile bag fraction = .ok (bag.percentile fraction) := by
  refine read_guarded bag _ _ fun table phase => ?_
  split
  · by_cases unfilled : bag.size = 0
    · rw [if_pos unfilled, if_pos unfilled]
    · rw [if_neg unfilled, if_neg unfilled, minus_within bag.size 1 (by omega), ok_bind,
        get_guarded bag valid, SortedBag.percentilePosition]
  · rfl

end Reads

section Cursors

variable (cursor : Cursor)

theorem remove_last_guarded (frozen : cursor.bag.isFrozen = true) :
    removeLast cursor = .ok cursor.remove := by
  rw [removeLast, Cursor.remove]
  cases cursor.last with
  | none => rfl
  | some value =>
      simp only [change, SortedBag.remove, SortedBag.change, if_pos frozen]
      rfl

variable (valid : cursor.bag.Valid) (few : cursor.bag.size < 2 ^ 64)

include valid few

theorem next_guarded : next cursor = .ok cursor.next := by
  rw [next, get_guarded cursor.bag valid, ok_bind, Cursor.next]
  cases found : cursor.bag.get cursor.position with
  | error failure => rfl
  | ok value =>
      have inside := SortedBag.get_inside cursor.bag cursor.position value valid found
      simp only [plus_room cursor.position 1 (by omega)]
      rfl

theorem yield_guarded (number : Nat) : yieldUpTo cursor number = .ok (cursor.yieldUpTo number) := by
  induction number generalizing cursor with
  | zero => rfl
  | succ number ih =>
      have same := Cursor.next_bag cursor
      rw [yieldUpTo, next_guarded cursor valid few, ok_bind, Cursor.yieldUpTo]
      generalize cursor.next = yielded at same
      obtain ⟨value, after⟩ := yielded
      cases value with
      | none => rfl
      | some value =>
          simp only [ih after (same ▸ valid) (same ▸ few)]
          rfl

variable (frozen : cursor.bag.isFrozen = true)

include frozen

theorem call_guarded (action : Cursor.Call) : call cursor action = .ok (cursor.perform action) := by
  cases action with
  | next => rw [call, next_guarded cursor valid few]; rfl
  | remaining => rfl
  | rest => rw [call, yield_guarded cursor valid few]; rfl
  | remove => rw [call, remove_last_guarded cursor frozen]; rfl

theorem call_each_guarded (calls : List Cursor.Call) :
    callEach cursor calls = .ok (cursor.run calls) := by
  induction calls generalizing cursor with
  | nil => rfl
  | cons action calls ih =>
      have same := Cursor.perform_bag cursor action frozen
      rw [callEach, call_guarded cursor valid few frozen, ok_bind,
        ih _ (same ▸ valid) (same ▸ few) (same ▸ frozen)]
      rfl

end Cursors

theorem perform_guarded (bag : SortedBag) (request : SortedBag.Request) (valid : bag.Valid)
    (few : bag.size < 2 ^ 64) : perform bag request = fits (bag.perform request) := by
  have sound := valid.toSound
  have same (served : Except BagError SortedBag.Reply × SortedBag) (kept : served.2.size = bag.size) :
      .ok served = fits served := (if_pos (kept ▸ few)).symm
  cases request with
  | add value =>
      rw [perform, put_guarded bag value sound few, change_guarded bag _ few, flagged_fits]
      rfl
  | remove value =>
      rw [perform, take_guarded bag value sound few, change_guarded bag _ few, flagged_fits]
      rfl
  | addAll values =>
      rw [perform, put_each_guarded values bag sound few, change_guarded bag _ few, flagged_fits]
      rfl
  | removeAll values =>
      rw [perform, take_each_guarded values bag sound few, change_guarded bag _ few, flagged_fits]
      rfl
  | retainAll values => exact same _ rfl
  | toArray => exact same _ rfl
  | contains value => exact same _ rfl
  | containsAll values => exact same _ rfl
  | countOf value =>
      rw [perform, count_of_guarded bag value sound]
      exact same _ rfl
  | entries => exact same _ rfl
  | clear => exact (if_pos (Nat.two_pow_pos 64)).symm
  | freeze =>
      rw [perform, freeze_guarded bag sound few]
      exact same _ (SortedBag.freeze_size bag)
  | get index => rw [perform, get_guarded bag valid]; exact same _ rfl
  | mode => rw [perform, mode_guarded bag valid]; exact same _ rfl
  | median => rw [perform, median_guarded bag valid]; exact same _ rfl
  | percentile fraction => rw [perform, percentile_guarded bag valid]; exact same _ rfl
  | cursor calls =>
      rw [perform, SortedBag.perform]
      cases opened : bag.cursor with
      | error failure => exact same _ rfl
      | ok cursor =>
          obtain ⟨rfl, frozen⟩ := SortedBag.cursor_frozen bag cursor opened
          simp only [call_each_guarded cursor valid few frozen calls]
          exact same _ (congrArg SortedBag.size (Cursor.run_bag cursor calls frozen))

theorem run_guarded (bag : SortedBag) (requests : List SortedBag.Request) (valid : bag.Valid)
    (few : bag.size < 2 ^ 64) (room : ∀ served ∈ bag.run requests, served.2.size < 2 ^ 64) :
    run bag requests = .ok (bag.run requests) := by
  induction requests generalizing bag with
  | nil => rfl
  | cons request requests ih =>
      have first := room _ List.mem_cons_self
      rw [run, perform_guarded bag request valid few, fits, if_pos first, ok_bind,
        ih _ (SortedBag.perform_valid bag request valid) first
          fun served later => room served (List.mem_cons_of_mem _ later)]
      rfl

end Guarded

namespace SortedBag

theorem get_answers (bag : SortedBag) (position : Nat) (valid : bag.Valid) (frozen : bag.isFrozen = true)
    (inside : position < bag.size) : ∃ value, bag.get position = .ok value := by
  obtain ⟨table, phase⟩ := frozen_table bag frozen
  rw [valid.laid table phase] at phase
  obtain ⟨run, entry, found, owns⟩ := owner_exists bag position valid.toSound inside
  exact ⟨entry.value, get_owned bag entry run position phase owns found⟩

theorem median_answers (bag : SortedBag) (valid : bag.Valid) (frozen : bag.isFrozen = true) :
    ∃ value, bag.median = .ok value := by
  obtain ⟨table, phase⟩ := frozen_table bag frozen
  simp only [median, SortedBag.table, phase, Except.bind]
  by_cases unfilled : bag.size = 0
  · exact ⟨.null, if_pos unfilled⟩
  · rw [if_neg unfilled]
    exact get_answers bag _ valid frozen (by omega)

theorem percentile_at (bag : SortedBag) (fraction : Binary64) (frozen : bag.isFrozen = true)
    (filled : 0 < bag.size) (within : (Binary64.zero.atMost fraction && fraction.atMost .one) = true) :
    bag.percentile fraction = bag.get (percentilePosition bag.size fraction) := by
  obtain ⟨table, phase⟩ := frozen_table bag frozen
  simp only [percentile, SortedBag.table, phase, Except.bind, within, if_true, if_neg filled.ne']

theorem percentile_answers (bag : SortedBag) (fraction : Binary64) (valid : bag.Valid)
    (frozen : bag.isFrozen = true) : (∃ value, bag.percentile fraction = .ok value) ∨
      bag.percentile fraction = .error (.fractionOutOfRange fraction) := by
  obtain ⟨table, phase⟩ := frozen_table bag frozen
  simp only [percentile, SortedBag.table, phase, Except.bind]
  by_cases within : (Binary64.zero.atMost fraction && fraction.atMost .one) = true
  · rw [if_pos within]
    by_cases unfilled : bag.size = 0
    · exact .inl ⟨.null, if_pos unfilled⟩
    · rw [if_neg unfilled]
      refine .inl (get_answers bag _ valid frozen ?_)
      rw [percentilePosition]
      omega
  · exact .inr (if_neg within)

/-- On arrays and 64-bit counters a bag serves every request as it does on lists and numbers, but for the counters of a
bag that would come to hold 2^64 occurrences. -/
theorem requests_within_bounds (bag : SortedBag) (reachable : bag.Reachable) (few : bag.size < 2 ^ 64) :
    (∀ request, Guarded.perform bag request = Guarded.fits (bag.perform request)) ∧
      (∀ requests, (∀ served ∈ bag.run requests, served.2.size < 2 ^ 64) →
        Guarded.run bag requests = .ok (bag.run requests)) ∧
      (bag.isFrozen = true → (∃ value, bag.median = .ok value) ∧
        ∀ fraction, (∃ value, bag.percentile fraction = .ok value) ∨
          bag.percentile fraction = .error (.fractionOutOfRange fraction)) := by
  have valid := reachable_valid bag reachable
  refine ⟨fun request => ?_, fun requests room => ?_, fun frozen => ⟨?_, fun fraction => ?_⟩⟩
  · exact Guarded.perform_guarded bag request valid few
  · exact Guarded.run_guarded bag requests valid few room
  · exact median_answers bag valid frozen
  · exact percentile_answers bag fraction valid frozen

theorem requests_within_bounds_two :
    let requests := [.addAll [.integer 7, .null, .integer 7], .remove .null, .freeze,
      .cursor [.rest, .next], .percentile .one]
    let bag := empty.after requests
    bag.size = 2 ∧ Guarded.run empty requests = .ok (empty.run requests) ∧
      bag.isFrozen = true ∧ ∃ value, bag.median = .ok value := by
  intro requests bag
  have size : bag.size = 2 := by decide +kernel
  have frozen : bag.isFrozen = true := by decide +kernel
  have room : ∀ served ∈ empty.run requests, served.2.size < 2 ^ 64 := by decide +kernel
  have few : bag.size < 2 ^ 64 := by omega
  have whole := (requests_within_bounds empty ⟨[], rfl⟩ (by decide)).2.1 requests room
  exact ⟨size, whole, frozen, ((requests_within_bounds bag ⟨requests, rfl⟩ few).2.2 frozen).1⟩

end SortedBag

end Aggregation
