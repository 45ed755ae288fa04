import Mathlib
import Aggregation.Proofs.SortedBag.Tally

set_option autoImplicit false

namespace Aggregation.Tally

-- The bag answers as the tally does, where that leaves no answer open, and shows the same sizes
-- afterwards.
structure Agrees (served : Except BagError SortedBag.Reply × SortedBag)
    (told : Option (Except BagError SortedBag.Reply) × Tally) : Prop where
  answer : told.1 = none ∨ told.1 = some served.1
  size : served.2.size = told.2.size
  isEmpty : (served.2.size == 0) = told.2.classes.isEmpty
  distinct : served.2.entries.size = told.2.classes.length
  isFrozen : served.2.isFrozen = told.2.sealed
  proper : told.2.Proper

def Follows (act : SortedBag → Datum → Bool × SortedBag)
    (model : List Entry → Datum → Bool × List Entry) : Prop :=
  ∀ (bag : SortedBag) (classes : List Entry) (value : Datum), bag.Sound →
    bag.entries.toList.Perm classes → (act bag value).1 = (model classes value).1 ∧
      (act bag value).2.entries.toList.Perm (model classes value).2

theorem put_follows : Follows SortedBag.put put := by
  intro bag classes value sound perm
  suffices same : (bag.put value).1 = (put bag.entries.toList value).1 ∧
      (bag.put value).2.entries.toList.Perm (put bag.entries.toList value).2 by
    obtain ⟨flag, rest⟩ := put_perm bag.entries.toList classes value perm
    exact ⟨same.1.trans flag, same.2.trans rest⟩
  have outcome := SortedBag.put_outcome bag value sound
  generalize bag.put value = result at outcome
  cases outcome with
  | raised below item above split less alike greater =>
      have comparable := hit_comparable Entry.value value _ below above item split less alike greater
      rw [put, refuses_none _ value comparable, split, present_split below above item value alike,
        recount_split _ below above item value less alike greater]
      exact ⟨rfl, List.Perm.refl _⟩
  | inserted below above split less greater =>
      have comparable := gap_comparable Entry.value value _ below above split less greater
      have absent := gap_absent Entry.value value _ below above split less greater
      rw [put, refuses_none _ value comparable, present_none _ value absent, split]
      exact ⟨rfl, List.perm_middle.trans (List.perm_append_singleton _ _).symm⟩
  | refused item inside apart =>
      have stranger : refuses bag.entries.toList value = true :=
        List.any_eq_true.mpr ⟨item, inside, decide_eq_true apart⟩
      rw [put, stranger]
      exact ⟨rfl, List.Perm.refl _⟩

-- Taking out leaves the entries in the order of the bag, so the two lists are equal.
theorem take_listed (bag : SortedBag) (value : Datum) (sound : bag.Sound) :
    (bag.take value).1 = (take bag.entries.toList value).1 ∧
      (bag.take value).2.entries.toList = (take bag.entries.toList value).2 := by
  have occurring := sound.occurring
  have outcome := SortedBag.take_outcome bag value sound
  generalize bag.take value = result at outcome
  cases outcome with
  | lowered below item above split less alike greater more =>
      simp only [split, List.forall_mem_append, List.forall_mem_cons] at occurring
      rw [split, take_split below above item value less alike greater, filter_occurring]
      · exact ⟨rfl, rfl⟩
      · simp only [List.forall_mem_append, List.forall_mem_cons]
        exact ⟨occurring.1, Nat.le_sub_of_add_le more, occurring.2.2⟩
  | dropped below item above split less alike greater last =>
      simp only [split, List.forall_mem_append, List.forall_mem_cons] at occurring
      rw [split, take_split below above item value less alike greater, List.filter_append,
        List.filter_cons_of_neg (by simp [last]), filter_occurring below occurring.1,
        filter_occurring above occurring.2.2]
      exact ⟨rfl, rfl⟩
  | missed absent =>
      rw [take, present_none _ value absent]
      exact ⟨rfl, rfl⟩

theorem take_follows : Follows SortedBag.take take := by
  intro bag classes value sound perm
  obtain ⟨flag, rest⟩ := take_perm bag.entries.toList classes value perm
  obtain ⟨same, listed⟩ := take_listed bag value sound
  exact ⟨same.trans flag, listed ▸ rest⟩

theorem each_follows (act : SortedBag → Datum → Bool × SortedBag)
    (model : List Entry → Datum → Bool × List Entry) (follows : Follows act model)
    (keeps : ∀ bag value, bag.Sound → (act bag value).2.Sound) (values : List Datum) (bag : SortedBag)
    (classes : List Entry) (sound : bag.Sound) (perm : bag.entries.toList.Perm classes) :
    (bag.withEach act values).1 = (withEach model classes values).1 ∧
      (bag.withEach act values).2.entries.toList.Perm (withEach model classes values).2 := by
  induction values generalizing bag classes with
  | nil => exact ⟨rfl, perm⟩
  | cons value values ih =>
      obtain ⟨first, next⟩ := follows bag classes value sound perm
      obtain ⟨flags, rest⟩ := ih _ _ (keeps bag value sound) next
      exact ⟨congrArg₂ (· && ·) first flags, rest⟩

theorem contains_eq (bag : SortedBag) (value : Datum) (sound : bag.Sound) :
    bag.contains value = present bag.entries.toList value := by
  have located := SortedBag.locate_located bag value sound
  rw [SortedBag.contains]
  generalize bag.locate value = slot at located
  cases located with
  | hit below item above split less alike greater =>
      rw [split, present_split below above item value alike]
  | gap below above split less greater =>
      rw [present_none _ value (gap_absent Entry.value value _ below above split less greater)]
  | refused item inside apart failure =>
      have absent := refused_absent Entry.value value _ item sound.ascending inside apart
      rw [present_none _ value absent]

theorem count_of_none (classes : List Entry) (value : Datum)
    (absent : ∀ x ∈ classes, ¬x.value.Alike value) : countOf classes value = 0 := by
  rw [countOf, List.filter_eq_nil_iff.mpr (by simpa using absent)]
  rfl

theorem count_of_eq (bag : SortedBag) (value : Datum) (sound : bag.Sound) :
    bag.countOf value = countOf bag.entries.toList value := by
  have located := SortedBag.locate_located bag value sound
  rw [SortedBag.countOf]
  generalize bag.locate value = slot at located
  cases located with
  | hit below item above split less alike greater =>
      have left : below.filter (fun entry => decide (entry.value.Alike value)) = [] :=
        List.filter_eq_nil_iff.mpr fun x inside => by
          simpa using Datum.not_alike_of_below _ _ (less x inside)
      have right : above.filter (fun entry => decide (entry.value.Alike value)) = [] :=
        List.filter_eq_nil_iff.mpr fun x inside => by
          simpa using Datum.not_alike_of_above _ _ (greater x inside)
      simp only [item_at_split bag.entries below above item split, Option.elim_some]
      rw [countOf, split, List.filter_append, left, List.filter_cons_of_pos (by simpa using alike), right]
      simp
  | gap below above split less greater =>
      exact (count_of_none _ value (gap_absent Entry.value value _ below above split less greater)).symm
  | refused item inside apart failure =>
      have absent := refused_absent Entry.value value _ item sound.ascending inside apart
      exact (count_of_none _ value absent).symm

def Distinct (x y : Entry) : Prop :=
  Datum.Comparable x.value y.value ∧ ¬x.value.Alike y.value

theorem distinct_symm (x y : Entry) (distinct : Distinct x y) : Distinct y x :=
  ⟨Datum.comparable_symm _ _ distinct.1, fun alike => distinct.2 (Datum.alike_symm _ _ alike)⟩

theorem ascending_distinct (classes : List Entry) (ascending : Ascending Entry.value classes) :
    classes.Pairwise Distinct :=
  ascending.imp fun below => ⟨((Datum.below_iff _ _).mp below).1, Datum.not_alike_of_below _ _ below⟩

theorem below_or_above (x y : Entry) (distinct : Distinct x y) :
    x.value.Below y.value ∨ y.value.Below x.value := by
  obtain ⟨order, answer⟩ := (Datum.comparable_iff _ _).mp distinct.1
  cases order with
  | lt => exact .inl answer
  | eq => exact absurd answer distinct.2
  | gt => exact .inr ((Datum.compare_gt_iff _ _).mp answer)

theorem ordered_insert_ascending (fresh : Entry) (classes : List Entry)
    (ascending : Ascending Entry.value classes) (distinct : ∀ x ∈ classes, Distinct fresh x) :
    Ascending Entry.value (classes.orderedInsert (fun x y => x.value.Below y.value) fresh) := by
  induction classes with
  | nil => exact List.pairwise_singleton _ _
  | cons head tail ih =>
      obtain ⟨first, rest⟩ := List.pairwise_cons.mp ascending
      rw [List.orderedInsert]
      split
      next before =>
        refine List.pairwise_cons.mpr ⟨fun x inside => ?_, ascending⟩
        rcases List.mem_cons.mp inside with rfl | later
        · exact before
        · exact Datum.below_trans _ _ _ before (first x later)
      next notBefore =>
        have after := (below_or_above fresh head (distinct head List.mem_cons_self)).resolve_left notBefore
        refine List.pairwise_cons.mpr ⟨fun x inside => ?_, ih rest fun x later =>
          distinct x (List.mem_cons_of_mem _ later)⟩
        rcases (List.mem_orderedInsert _).mp inside with rfl | later
        · exact after
        · exact first x later

theorem listing_ascending (classes : List Entry) (distinct : classes.Pairwise Distinct) :
    Ascending Entry.value (listing classes) := by
  induction classes with
  | nil => exact List.Pairwise.nil
  | cons head tail ih =>
      obtain ⟨first, rest⟩ := List.pairwise_cons.mp distinct
      refine ordered_insert_ascending head _ (ih rest) fun x inside => ?_
      exact first x ((List.perm_insertionSort _ tail).mem_iff.mp inside)

theorem listing_eq (bag : SortedBag) (classes : List Entry) (sound : bag.Sound)
    (perm : bag.entries.toList.Perm classes) : listing classes = bag.entries.toList := by
  have distinct := (perm.pairwise_iff (distinct_symm _ _)).mp (ascending_distinct _ sound.ascending)
  have same := (List.perm_insertionSort (fun x y => x.value.Below y.value) classes).trans perm.symm
  exact ascending_perm_eq Entry.value _ _ (listing_ascending classes distinct) sound.ascending same

structure Represents (bag : SortedBag) (tally : Tally) : Prop where
  valid : bag.Valid
  perm : bag.entries.toList.Perm tally.classes
  isFrozen : bag.isFrozen = tally.sealed

theorem represents_proper (bag : SortedBag) (tally : Tally) (represents : Represents bag tally) :
    tally.Proper where
  apart := ((represents.perm.pairwise_iff (distinct_symm _ _)).mp
    (ascending_distinct _ represents.valid.ascending)).imp And.right
  occurring := fun entry inside => represents.valid.occurring entry (represents.perm.mem_iff.mpr inside)

theorem represents_size (bag : SortedBag) (tally : Tally) (represents : Represents bag tally) :
    bag.size = tally.size := by
  rw [represents.valid.size_eq, SortedBag.counts, (represents.perm.map _).sum_eq, size]

theorem size_zero_iff (tally : Tally) (proper : tally.Proper) :
    (tally.size == 0) = tally.classes.isEmpty := by
  obtain ⟨classes, sealed⟩ := tally
  cases classes with
  | nil => rfl
  | cons head tail =>
      have one := proper.occurring head List.mem_cons_self
      have nonempty : size ⟨head :: tail, sealed⟩ ≠ 0 := by
        rw [size, List.map_cons, List.sum_cons]
        omega
      simpa using nonempty

structure Matches (served : Except BagError SortedBag.Reply × SortedBag)
    (told : Option (Except BagError SortedBag.Reply) × Tally) : Prop where
  answer : told.1 = none ∨ told.1 = some served.1
  represents : Represents served.2 told.2

theorem agrees_of_matches (served : Except BagError SortedBag.Reply × SortedBag)
    (told : Option (Except BagError SortedBag.Reply) × Tally) (step : Matches served told) :
    Agrees served told where
  answer := step.answer
  size := represents_size _ _ step.represents
  isEmpty := by
    rw [← size_zero_iff told.2 (represents_proper _ _ step.represents),
      represents_size _ _ step.represents]
  distinct := step.represents.perm.length_eq
  isFrozen := step.represents.isFrozen
  proper := represents_proper _ _ step.represents

theorem change_matches (bag : SortedBag) (tally : Tally) (changed : Bool × SortedBag)
    (told : Bool × List Entry) (represents : Represents bag tally)
    (kept : changed.2.Sound ∧ changed.2.phase = bag.phase)
    (same : changed.1 = told.1 ∧ changed.2.entries.toList.Perm told.2) :
    Matches ((bag.change changed).1.map .flag, (bag.change changed).2) (tally.change told) := by
  have valid := SortedBag.change_valid bag changed represents.valid kept.1 kept.2
  have frozen := represents.isFrozen
  have unfrozen : changed.2.isFrozen = bag.isFrozen := by
    rw [SortedBag.isFrozen, SortedBag.isFrozen, kept.2]
  rw [SortedBag.change] at valid ⊢
  rw [change, ← frozen]
  cases phase : bag.isFrozen with
  | true => exact ⟨.inr rfl, represents⟩
  | false =>
      simp only [phase, Bool.false_eq_true, if_false] at valid ⊢
      exact ⟨.inr (by rw [same.1]; rfl), valid, same.2, unfrozen.trans phase⟩

theorem freeze_matches (bag : SortedBag) (tally : Tally) (represents : Represents bag tally) :
    Matches (bag.perform .freeze) (tally.perform .freeze) := by
  have valid := SortedBag.freeze_valid bag represents.valid
  rw [SortedBag.freeze] at valid
  rw [SortedBag.perform, perform, SortedBag.freeze, ← represents.isFrozen]
  cases phase : bag.isFrozen with
  | true => exact ⟨.inr rfl, represents.valid, represents.perm, phase⟩
  | false =>
      simp only [phase, Bool.false_eq_true, if_false] at valid ⊢
      exact ⟨.inr rfl, valid, represents.perm, rfl⟩

theorem empty_represents : Represents SortedBag.empty empty :=
  ⟨SortedBag.empty_valid, List.Perm.refl _, rfl⟩

theorem perform_matches (bag : SortedBag) (tally : Tally) (request : SortedBag.Request)
    (represents : Represents bag tally) : Matches (bag.perform request) (tally.perform request) := by
  have sound := represents.valid.toSound
  have perm := represents.perm
  cases request with
  | add value =>
      exact change_matches bag tally _ _ represents
        ⟨SortedBag.sound_put bag value sound, SortedBag.put_phase bag value⟩
        (put_follows bag _ value sound perm)
  | remove value =>
      exact change_matches bag tally _ _ represents
        ⟨SortedBag.sound_take bag value sound, SortedBag.take_phase bag value⟩
        (take_follows bag _ value sound perm)
  | addAll values =>
      exact change_matches bag tally _ _ represents
        (SortedBag.each_sound _ SortedBag.sound_put SortedBag.put_phase values bag sound)
        (each_follows _ _ put_follows SortedBag.sound_put values bag _ sound perm)
  | removeAll values =>
      exact change_matches bag tally _ _ represents
        (SortedBag.each_sound _ SortedBag.sound_take SortedBag.take_phase values bag sound)
        (each_follows _ _ take_follows SortedBag.sound_take values bag _ sound perm)
  | retainAll values => exact ⟨.inr rfl, represents⟩
  | toArray => exact ⟨.inr rfl, represents⟩
  | contains value =>
      have same : present tally.classes value = bag.contains value := by
        rw [contains_eq bag value sound, present, present, perm.any_eq]
      exact ⟨.inr (by rw [perform, SortedBag.perform, same]), represents⟩
  | containsAll values =>
      have same : values.all (present tally.classes) = bag.containsAll values := by
        rw [SortedBag.containsAll]
        congr 1
        funext value
        rw [contains_eq bag value sound, present, present, perm.any_eq]
      exact ⟨.inr (by rw [perform, SortedBag.perform, same]), represents⟩
  | countOf value =>
      have same : countOf tally.classes value = bag.countOf value := by
        rw [count_of_eq bag value sound, countOf, countOf, ((perm.filter _).map _).sum_eq]
      exact ⟨.inr (by rw [perform, SortedBag.perform, same]), represents⟩
  | entries =>
      exact ⟨.inr (by rw [perform, SortedBag.perform, listing_eq bag _ sound perm]), represents⟩
  | clear => exact ⟨.inr rfl, empty_represents⟩
  | freeze => exact freeze_matches bag tally represents
  | get index => exact ⟨.inl rfl, represents⟩
  | mode => exact ⟨.inl rfl, represents⟩
  | median => exact ⟨.inl rfl, represents⟩
  | percentile fraction => exact ⟨.inl rfl, represents⟩
  | cursor calls =>
      refine ⟨.inl rfl, ?_⟩
      rw [SortedBag.perform]
      cases opened : bag.cursor with
      | error failure => exact represents
      | ok cursor =>
          obtain ⟨same, frozen⟩ := SortedBag.cursor_frozen bag cursor opened
          simp only [Cursor.run_bag cursor calls (same ▸ frozen), same]
          exact represents

theorem run_matches (bag : SortedBag) (tally : Tally) (requests : List SortedBag.Request)
    (represents : Represents bag tally) :
    List.Forall₂ Matches (bag.run requests) (tally.run requests) := by
  induction requests generalizing bag tally with
  | nil => exact .nil
  | cons request requests ih =>
      have step := perform_matches bag tally request represents
      exact .cons step (ih _ _ step.represents)

/-- From the empty bag on, every request of every run is answered as by the tally, and leaves a tally
whose classes are apart and occur. -/
theorem empty_run_agrees (requests : List SortedBag.Request) :
    List.Forall₂ Agrees (SortedBag.empty.run requests) (empty.run requests) :=
  (run_matches _ _ requests empty_represents).imp fun _ _ step => agrees_of_matches _ _ step

end Aggregation.Tally
