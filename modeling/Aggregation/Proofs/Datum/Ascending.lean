import Mathlib
import Aggregation.Proofs.Datum.Order
import Aggregation.Proofs.Probing

set_option autoImplicit false

namespace Aggregation

namespace Datum

def Below (a b : Datum) : Prop := a.compare b = .ok .lt

def Alike (a b : Datum) : Prop := a.compare b = .ok .eq

theorem answers_iff (a b : Datum) (order : Ordering) :
    (a.compare b).toOption = some order ↔ a.compare b = .ok order := by
  cases a.compare b <;> simp [Except.toOption]

instance (a b : Datum) : Decidable (Below a b) := decidable_of_iff _ (answers_iff a b .lt)

instance (a b : Datum) : Decidable (Alike a b) := decidable_of_iff _ (answers_iff a b .eq)

theorem below_iff (a b : Datum) : Below a b ↔ Comparable a b ∧ a.rank < b.rank := by
  constructor
  · intro below
    have comparable := (comparable_iff a b).mpr ⟨_, below⟩
    rw [Below, compare_rank a b comparable, Except.ok.injEq, cmp_eq_lt_iff] at below
    exact ⟨comparable, below⟩
  · rintro ⟨comparable, less⟩
    rw [Below, compare_rank a b comparable, (cmp_eq_lt_iff _ _).mpr less]

theorem alike_iff (a b : Datum) : Alike a b ↔ a.rank = b.rank := by
  constructor
  · intro alike
    have comparable := (comparable_iff a b).mpr ⟨_, alike⟩
    rw [Alike, compare_rank a b comparable, Except.ok.injEq, cmp_eq_eq_iff] at alike
    exact alike
  · intro same
    rw [Alike, compare_rank a b (comparable_of_rank a b same), (cmp_eq_eq_iff _ _).mpr same]

theorem compare_gt_iff (a b : Datum) : a.compare b = .ok .gt ↔ Below b a := by
  rw [below_iff]
  constructor
  · intro above
    have comparable := (comparable_iff a b).mpr ⟨_, above⟩
    rw [compare_rank a b comparable, Except.ok.injEq, cmp_eq_gt_iff] at above
    exact ⟨comparable_symm a b comparable, above⟩
  · rintro ⟨comparable, less⟩
    rw [compare_rank a b (comparable_symm b a comparable), (cmp_eq_gt_iff _ _).mpr less]

theorem at_most_of_below (a b : Datum) (below : Below a b) : AtMost a b := by
  rw [below_iff] at below
  exact (at_most_iff a b).mpr ⟨below.1, below.2.le⟩

theorem below_present (a b : Datum) (below : Below a b) : b ≠ .null := by
  rintro rfl
  exact not_lt_bot ((below_iff a .null).mp below).2

theorem below_trans (a b c : Datum) (left : Below a b) (right : Below b c) : Below a c := by
  have present := below_present a b left
  rw [below_iff] at left right ⊢
  exact ⟨comparable_trans a b c present left.1 right.1, left.2.trans right.2⟩

theorem not_alike_of_below (a b : Datum) (below : Below a b) : ¬Alike a b := by
  intro alike
  exact absurd ((alike_iff a b).mp alike) ((below_iff a b).mp below).2.ne

theorem not_alike_of_above (a b : Datum) (above : Below b a) : ¬Alike a b := by
  intro alike
  exact absurd ((alike_iff a b).mp alike) ((below_iff b a).mp above).2.ne'

theorem alike_refl (a : Datum) : Alike a a :=
  (alike_iff a a).mpr rfl

theorem alike_symm (a b : Datum) (alike : Alike a b) : Alike b a :=
  (alike_iff b a).mpr ((alike_iff a b).mp alike).symm

theorem alike_trans (a b c : Datum) (left : Alike a b) (right : Alike b c) : Alike a c :=
  (alike_iff a c).mpr (((alike_iff a b).mp left).trans ((alike_iff b c).mp right))

theorem family_of_alike (a b : Datum) (alike : Alike a b) : a.family? = b.family? := by
  have same := (alike_iff a b).mp alike
  cases a <;> cases b <;> simp_all [family?, rank, truthRank, numberRank, textRank]

theorem family_of_present (a : Datum) (present : a ≠ .null) : ∃ family, a.family? = some family := by
  cases a with
  | null => exact absurd rfl present
  | boolean b => exact ⟨.truth, rfl⟩
  | integer n => exact ⟨.number, rfl⟩
  | double x => exact ⟨.number, rfl⟩
  | text s => exact ⟨.text, rfl⟩

theorem comparable_family (a b : Datum) :
    Comparable a b ↔ ∀ f g, a.family? = some f → b.family? = some g → f = g := by
  cases a <;> cases b <;> simp [Comparable, family?]

theorem comparable_congr (a b c : Datum) (alike : Alike a b) : Comparable a c ↔ Comparable b c := by
  rw [comparable_family, comparable_family, family_of_alike a b alike]

theorem below_congr_left (a b c : Datum) (alike : Alike a b) : Below a c ↔ Below b c := by
  rw [below_iff, below_iff, comparable_congr a b c alike, (alike_iff a b).mp alike]

theorem below_congr_right (a b c : Datum) (alike : Alike b c) : Below a b ↔ Below a c := by
  rw [below_iff, below_iff, comparable_family, comparable_family, family_of_alike b c alike,
    (alike_iff b c).mp alike]

end Datum

variable {α : Type} (value : α → Datum) (key : Datum)

def Ascending (items : List α) : Prop :=
  items.Pairwise fun x y => (value x).Below (value y)

theorem ascending_comparable (items : List α) (ascending : Ascending value items) (x y : α)
    (xIn : x ∈ items) (yIn : y ∈ items) : Datum.Comparable (value x) (value y) := by
  induction items with
  | nil => cases xIn
  | cons head tail ih =>
      obtain ⟨first, rest⟩ := List.pairwise_cons.mp ascending
      have after (z : α) (zIn : z ∈ tail) : Datum.Comparable (value head) (value z) :=
        ((Datum.below_iff _ _).mp (first z zIn)).1
      rcases List.mem_cons.mp xIn with rfl | xLater <;> rcases List.mem_cons.mp yIn with rfl | yLater
      · exact .inr (.inr rfl)
      · exact after y yLater
      · exact Datum.comparable_symm _ _ (after x xLater)
      · exact ih rest xLater yLater

theorem ascending_null_first (items : List α) (ascending : Ascending value items) (index : Nat)
    (item : α) (found : items[index]? = some item) (null : value item = .null) : index = 0 := by
  cases items with
  | nil => cases found
  | cons head tail =>
      cases index with
      | zero => rfl
      | succ index =>
          obtain ⟨first, _⟩ := List.pairwise_cons.mp ascending
          rw [List.getElem?_cons_succ] at found
          exact absurd null (Datum.below_present _ _ (first item (List.mem_of_getElem? found)))

theorem ascending_family (items : List α) (ascending : Ascending value items) :
    ∃ family, ∀ item ∈ items, value item = .null ∨ (value item).family? = some family := by
  by_cases filled : ∃ item ∈ items, value item ≠ .null
  · obtain ⟨item, inside, present⟩ := filled
    obtain ⟨family, named⟩ := Datum.family_of_present _ present
    refine ⟨family, fun other otherIn => ?_⟩
    rcases ascending_comparable value items ascending other item otherIn inside with null | null | same
    · exact .inl null
    · exact absurd null present
    · exact .inr (same.trans named)
  · exact ⟨.truth, fun item inside => .inl (not_not.mp fun present => filled ⟨item, inside, present⟩)⟩

-- What a search for a key answers: the item that is like the key, or the place between lower and
-- higher items, or a failure when an item cannot be compared with the key.
inductive Located (items : List α) : Except DatumError Slot → Prop where
  | hit (below : List α) (item : α) (above : List α) (split : items = below ++ item :: above)
      (less : ∀ x ∈ below, (value x).Below key) (alike : (value item).Alike key)
      (greater : ∀ x ∈ above, key.Below (value x)) : Located items (.ok (.hit below.length))
  | gap (below above : List α) (split : items = below ++ above)
      (less : ∀ x ∈ below, (value x).Below key) (greater : ∀ x ∈ above, key.Below (value x)) :
      Located items (.ok (.gap below.length))
  | refused (item : α) (inside : item ∈ items) (apart : ¬Datum.Comparable (value item) key)
      (failure : DatumError) : Located items (.error failure)

theorem gap_comparable (items below above : List α) (split : items = below ++ above)
    (less : ∀ x ∈ below, (value x).Below key) (greater : ∀ x ∈ above, key.Below (value x)) :
    ∀ x ∈ items, Datum.Comparable (value x) key := by
  intro x inside
  rw [split] at inside
  rcases List.mem_append.mp inside with left | right
  · exact ((Datum.below_iff _ _).mp (less x left)).1
  · exact Datum.comparable_symm _ _ ((Datum.below_iff _ _).mp (greater x right)).1

theorem hit_comparable (items below above : List α) (item : α) (split : items = below ++ item :: above)
    (less : ∀ x ∈ below, (value x).Below key) (alike : (value item).Alike key)
    (greater : ∀ x ∈ above, key.Below (value x)) : ∀ x ∈ items, Datum.Comparable (value x) key := by
  intro x inside
  rw [split] at inside
  rcases List.mem_append.mp inside with left | here
  · exact gap_comparable value key below below [] (List.append_nil _).symm less (by simp) x left
  · rcases List.mem_cons.mp here with rfl | right
    · exact (Datum.comparable_iff _ _).mpr ⟨_, alike⟩
    · exact gap_comparable value key above [] above rfl (by simp) greater x right

theorem gap_absent (items below above : List α) (split : items = below ++ above)
    (less : ∀ x ∈ below, (value x).Below key) (greater : ∀ x ∈ above, key.Below (value x)) :
    ∀ x ∈ items, ¬(value x).Alike key := by
  intro x inside
  rw [split] at inside
  rcases List.mem_append.mp inside with left | right
  · exact Datum.not_alike_of_below _ _ (less x left)
  · exact Datum.not_alike_of_above _ _ (greater x right)

theorem refused_absent (items : List α) (item : α) (ascending : Ascending value items)
    (inside : item ∈ items) (apart : ¬Datum.Comparable (value item) key) :
    ∀ x ∈ items, ¬(value x).Alike key := by
  intro x xIn alike
  have near := ascending_comparable value items ascending x item xIn inside
  have comparable := (Datum.comparable_congr _ _ _ alike).mp near
  exact apart (Datum.comparable_symm _ _ comparable)

theorem ascending_insert (below above : List α) (fresh : α) (ascending : Ascending value (below ++ above))
    (less : ∀ x ∈ below, (value x).Below (value fresh))
    (greater : ∀ x ∈ above, (value fresh).Below (value x)) :
    Ascending value (below ++ fresh :: above) := by
  obtain ⟨left, right, across⟩ := List.pairwise_append.mp ascending
  refine List.pairwise_append.mpr ⟨left, List.pairwise_cons.mpr ⟨greater, right⟩, fun x xIn y yIn => ?_⟩
  rcases List.mem_cons.mp yIn with rfl | later
  · exact less x xIn
  · exact across x xIn y later

theorem ascending_perm_eq (items others : List α) (first : Ascending value items)
    (second : Ascending value others) (perm : items.Perm others) : items = others := by
  refine List.Perm.eq_of_pairwise ?_ first second perm
  intro x y _ _ less more
  exact absurd ((Datum.below_iff _ _).mp less).2 (lt_asymm ((Datum.below_iff _ _).mp more).2)

-- Only the first item can be NULL, and the middle one is first only where it is alone.
theorem middle_present (items : List α) (middle item : α) (ascending : Ascending value items)
    (found : items[items.length / 2]? = some middle) (inside : item ∈ items)
    (present : value item ≠ .null) : value middle ≠ .null := by
  cases items with
  | nil => cases inside
  | cons head tail =>
      obtain ⟨first, _⟩ := List.pairwise_cons.mp ascending
      cases tail with
      | nil =>
          have same : head = middle := by simpa using found
          rw [List.mem_singleton.mp inside, same] at present
          exact present
      | cons next rest =>
          have half : (head :: next :: rest).length / 2 = rest.length / 2 + 1 := by
            simp only [List.length_cons]
            omega
          rw [half, List.getElem?_cons_succ] at found
          exact Datum.below_present _ _ (first middle (List.mem_of_getElem? found))

section Run

open Probing

variable (items : Array α) (ascending : Ascending value items.toList)

include ascending

-- The middle item refuses the key where any item does, and it is asked first.
theorem run_refused (probing : Probing items.size) (bisects : probing.Bisects) (x : α) (inside : x ∈ items.toList)
    (apart : ¬Datum.Comparable (value x) key) :
    ∃ failure, probing.run (answers (fun x => (value x).compare key) items) none = .error failure := by
  have filled := List.length_pos_of_mem inside
  rw [Array.length_toList] at filled
  obtain ⟨index, next, middle, rfl⟩ := bisects.middle filled
  obtain ⟨y, found, answer⟩ := answers_item (fun x => (value x).compare key) items index
  rw [middle, ← Array.length_toList] at found
  have present := middle_present value _ y x ascending found inside fun null => apart (.inl null)
  have near := ascending_comparable value _ ascending x y inside (List.mem_of_getElem? found)
  have refused := Datum.compare_refused _ _ fun comparable =>
    apart (Datum.comparable_trans _ _ _ present near comparable)
  rw [run, answer, refused]
  exact run_kept _ _ _

variable (order : Fin items.size → Ordering)
  (answered : ∀ i, answers (fun x => (value x).compare key) items i = .ok (order i))

include answered

omit ascending in
theorem item_answered (i : Nat) (x : α) (found : items.toList[i]? = some x) :
    ∃ index : Fin items.size, index.val = i ∧ (value x).compare key = .ok (order index) := by
  obtain ⟨inside, _⟩ := List.getElem?_eq_some_iff.mp found
  obtain ⟨y, also, answer⟩ := answers_item (fun x => (value x).compare key) items ⟨i, inside⟩
  cases found.symm.trans also
  exact ⟨_, rfl, answer.symm.trans (answered _)⟩

theorem answers_rise : Rises order := by
  intro i j le
  rcases le.eq_or_lt with rfl | less
  · exact ⟨id, id⟩
  obtain ⟨x, left, first⟩ := answers_item (fun x => (value x).compare key) items i
  obtain ⟨y, right, last⟩ := answers_item (fun x => (value x).compare key) items j
  rw [answered] at first last
  obtain ⟨iIn, rfl⟩ := List.getElem?_eq_some_iff.mp left
  obtain ⟨jIn, rfl⟩ := List.getElem?_eq_some_iff.mp right
  have below := List.pairwise_iff_getElem.mp ascending i j iIn jIn less
  constructor
  · intro lower
    rw [lower] at last
    exact Except.ok.inj (first.trans (Datum.below_trans _ _ _ below last.symm))
  · intro higher
    rw [higher] at first
    have above := Datum.below_trans _ _ _ ((Datum.compare_gt_iff _ _).mp first.symm) below
    exact Except.ok.inj (last.trans ((Datum.compare_gt_iff _ _).mpr above))

theorem fits_located (slot : Slot) (fits : Fits order slot) : Located value key items.toList (.ok slot) := by
  cases fits with
  | hit index equal =>
      obtain ⟨x, found, answer⟩ := answers_item (fun x => (value x).compare key) items index
      have alike : (value x).Alike key := answer.symm.trans ((answered index).trans (by rw [equal]))
      obtain ⟨here, same⟩ := List.getElem?_eq_some_iff.mp found
      have split : items.toList = items.toList.take index ++ x :: items.toList.drop (index + 1) := by
        rw [← same, ← List.drop_eq_getElem_cons here, List.take_append_drop]
      obtain ⟨_, later, across⟩ := List.pairwise_append.mp (split ▸ ascending : Ascending value (_ ++ _))
      have located := Located.hit (items.toList.take index) x _ split
        (fun y inside => (Datum.below_congr_right _ _ _ alike).mp (across y inside x List.mem_cons_self)) alike
        fun y inside => (Datum.below_congr_left _ _ _ alike).mp ((List.pairwise_cons.mp later).1 y inside)
      rwa [List.length_take_of_le here.le] at located
  | gap point inside before after =>
      have less : ∀ x ∈ items.toList.take point, (value x).Below key := by
        intro x member
        obtain ⟨i, short, found⟩ := List.mem_take_iff_getElem.mp member
        have listed := List.getElem?_eq_some_iff.mpr ⟨by omega, found⟩
        obtain ⟨index, same, answer⟩ := item_answered value key items order answered i x listed
        rwa [before index (by omega)] at answer
      have greater : ∀ x ∈ items.toList.drop point, key.Below (value x) := by
        intro x member
        obtain ⟨i, short, found⟩ := List.mem_drop_iff_getElem.mp member
        have listed := List.getElem?_eq_some_iff.mpr ⟨by omega, found⟩
        obtain ⟨index, same, answer⟩ := item_answered value key items order answered _ x listed
        rw [after index (by omega)] at answer
        exact (Datum.compare_gt_iff _ _).mp answer
      have located := Located.gap _ _ (List.take_append_drop point items.toList).symm less greater
      rwa [List.length_take_of_le inside] at located

omit answered

theorem run_located (probing : Probing items.size) (bisects : probing.Bisects) :
    Located value key items.toList (probing.run (answers (fun x => (value x).compare key) items) none) := by
  by_cases comparable : ∀ x ∈ items.toList, Datum.Comparable (value x) key
  · have given (i : Fin items.size) : ∃ order, answers (fun x => (value x).compare key) items i = .ok order := by
      obtain ⟨x, found, answer⟩ := answers_item (fun x => (value x).compare key) items i
      rw [answer]
      exact (Datum.comparable_iff _ _).mp (comparable x (List.mem_of_getElem? found))
    choose order answered using given
    rw [run_found _ order probing answered]
    have rises := answers_rise value key items ascending order answered
    exact fits_located value key items ascending order answered _ (bisects.finds order rises)
  · obtain ⟨x, inside, apart⟩ : ∃ x ∈ items.toList, ¬Datum.Comparable (value x) key := by
      simpa only [not_forall, exists_prop] using comparable
    obtain ⟨failure, failed⟩ := run_refused value key items ascending probing bisects x inside apart
    rw [failed]
    exact .refused x inside apart failure

theorem search_located :
    Located value key items.toList (search (fun x => (value x).compare key) items) := by
  rw [← halving_searches]
  exact run_located value key items ascending _ (halving_bisects items.size)

end Run

end Aggregation
