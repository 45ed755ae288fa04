import Mathlib
import Aggregation.Proofs.SortedBag.Invariant

set_option autoImplicit false

namespace Aggregation

-- The classes that are present, each as the value that brought it in and the number of its
-- occurrences.
structure Tally where
  classes : List Entry
  sealed : Bool

namespace Tally

def empty : Tally := ⟨[], false⟩

def present (classes : List Entry) (value : Datum) : Bool :=
  classes.any fun entry => decide (entry.value.Alike value)

def refuses (classes : List Entry) (value : Datum) : Bool :=
  classes.any fun entry => decide ¬Datum.Comparable entry.value value

def recount (change : Nat → Nat) (classes : List Entry) (value : Datum) : List Entry :=
  classes.map fun entry =>
    if entry.value.Alike value then { entry with count := change entry.count } else entry

def put (classes : List Entry) (value : Datum) : Bool × List Entry :=
  if refuses classes value then (false, classes)
  else if present classes value then (true, recount (· + 1) classes value)
  else (true, classes ++ [⟨value, 1⟩])

def take (classes : List Entry) (value : Datum) : Bool × List Entry :=
  if present classes value then
    (true, (recount (· - 1) classes value).filter fun entry => decide (0 < entry.count))
  else (false, classes)

def withEach (act : List Entry → Datum → Bool × List Entry) (classes : List Entry) :
    List Datum → Bool × List Entry
  | [] => (true, classes)
  | value :: values =>
      let first := act classes value
      let others := withEach act first.2 values
      (first.1 && others.1, others.2)

def countOf (classes : List Entry) (value : Datum) : Nat :=
  ((classes.filter fun entry => decide (entry.value.Alike value)).map (·.count)).sum

def size (tally : Tally) : Nat := (tally.classes.map (·.count)).sum

def listing (classes : List Entry) : List Entry :=
  classes.insertionSort fun x y => x.value.Below y.value

def change (tally : Tally) (changed : Bool × List Entry) :
    Option (Except BagError SortedBag.Reply) × Tally :=
  if tally.sealed then (some (.error .frozen), tally)
  else (some (.ok (.flag changed.1)), { tally with classes := changed.2 })

-- The answer to a request and the tally after it. A tally has no positions: it leaves open what is
-- read by position, and such a request changes nothing.
def perform (tally : Tally) :
    SortedBag.Request → Option (Except BagError SortedBag.Reply) × Tally
  | .add value => tally.change (put tally.classes value)
  | .remove value => tally.change (take tally.classes value)
  | .addAll values => tally.change (withEach put tally.classes values)
  | .removeAll values => tally.change (withEach take tally.classes values)
  | .retainAll _ => (some (.error (.unsupported "retain_all")), tally)
  | .toArray => (some (.error (.unsupported "to_array")), tally)
  | .contains value => (some (.ok (.flag (present tally.classes value))), tally)
  | .containsAll values => (some (.ok (.flag (values.all (present tally.classes)))), tally)
  | .countOf value => (some (.ok (.number (countOf tally.classes value))), tally)
  | .entries => (some (.ok (.entries (listing tally.classes))), tally)
  | .clear => (some (.ok .done), empty)
  | .freeze =>
      (some (if tally.sealed then .error .frozenTwice else .ok .done), { tally with sealed := true })
  | .get _ | .mode | .median | .percentile _ | .cursor _ => (none, tally)

def run (tally : Tally) : List SortedBag.Request → List (Option (Except BagError SortedBag.Reply) × Tally)
  | [] => []
  | request :: requests =>
      let served := tally.perform request
      served :: served.2.run requests

structure Proper (tally : Tally) : Prop where
  apart : tally.classes.Pairwise fun x y => ¬x.value.Alike y.value
  occurring : ∀ entry ∈ tally.classes, 1 ≤ entry.count

theorem recount_none (change : Nat → Nat) (classes : List Entry) (value : Datum)
    (absent : ∀ x ∈ classes, ¬x.value.Alike value) : recount change classes value = classes := by
  rw [recount]
  nth_rewrite 2 [← List.map_id classes]
  exact List.map_congr_left fun x inside => if_neg (absent x inside)

theorem recount_split (change : Nat → Nat) (below above : List Entry) (item : Entry) (value : Datum)
    (less : ∀ x ∈ below, x.value.Below value) (alike : item.value.Alike value)
    (greater : ∀ x ∈ above, value.Below x.value) :
    recount change (below ++ item :: above) value =
      below ++ { item with count := change item.count } :: above := by
  have left := recount_none change below value fun x inside => Datum.not_alike_of_below _ _ (less x inside)
  have right := recount_none change above value fun x inside =>
    Datum.not_alike_of_above _ _ (greater x inside)
  rw [recount] at left right ⊢
  rw [List.map_append, List.map_cons, left, right, if_pos alike]

theorem present_split (below above : List Entry) (item : Entry) (value : Datum)
    (alike : item.value.Alike value) : present (below ++ item :: above) value = true := by
  simp [present, alike]

theorem present_none (classes : List Entry) (value : Datum)
    (absent : ∀ x ∈ classes, ¬x.value.Alike value) : present classes value = false := by
  simpa [present] using absent

theorem refuses_none (classes : List Entry) (value : Datum)
    (comparable : ∀ x ∈ classes, Datum.Comparable x.value value) : refuses classes value = false := by
  simpa [refuses] using comparable

theorem recount_perm (change : Nat → Nat) (left right : List Entry) (value : Datum)
    (perm : left.Perm right) : (recount change left value).Perm (recount change right value) :=
  perm.map _

theorem put_perm (left right : List Entry) (value : Datum) (perm : left.Perm right) :
    (put left value).1 = (put right value).1 ∧ (put left value).2.Perm (put right value).2 := by
  rw [put, put, refuses, refuses, present, present, perm.any_eq, perm.any_eq]
  split
  · exact ⟨rfl, perm⟩
  · split
    · exact ⟨rfl, recount_perm _ left right value perm⟩
    · exact ⟨rfl, perm.append_right _⟩

theorem take_perm (left right : List Entry) (value : Datum) (perm : left.Perm right) :
    (take left value).1 = (take right value).1 ∧ (take left value).2.Perm (take right value).2 := by
  rw [take, take, present, present, perm.any_eq]
  split
  · exact ⟨rfl, (recount_perm _ left right value perm).filter _⟩
  · exact ⟨rfl, perm⟩

theorem filter_occurring (classes : List Entry) (occurring : ∀ x ∈ classes, 1 ≤ x.count) :
    (classes.filter fun entry => decide (0 < entry.count)) = classes :=
  List.filter_eq_self.mpr fun x inside => decide_eq_true (occurring x inside)

theorem take_split (below above : List Entry) (item : Entry) (value : Datum)
    (less : ∀ x ∈ below, x.value.Below value) (alike : item.value.Alike value)
    (greater : ∀ x ∈ above, value.Below x.value) :
    take (below ++ item :: above) value =
      (true, (below ++ { item with count := item.count - 1 } :: above).filter
        fun entry => decide (0 < entry.count)) := by
  rw [take, present_split below above item value alike, if_pos rfl,
    recount_split _ below above item value less alike greater]

end Tally

end Aggregation
