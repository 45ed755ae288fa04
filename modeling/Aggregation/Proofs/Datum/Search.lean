import Mathlib
import Aggregation.Proofs.Datum.Ascending
import Aggregation.Proofs.Probing

set_option autoImplicit false

namespace Aggregation

open Probing

variable {α : Type} (value : α → Datum) (key : Datum)

-- What a look at every item answers: a failure if one of them cannot be compared with the key, else the index
-- of the item that is like the key, else how many items are below it.
structure Linear (items : List α) (outcome : Except DatumError Slot) : Prop where
  fails : (∃ failure, outcome = .error failure) ↔
    ∃ x ∈ items, ∃ failure, (value x).compare key = .error failure
  blames : ∀ failure, outcome = .error failure → ∃ x ∈ items, (value x).compare key = .error failure
  hit : ∀ i, outcome = .ok (.hit i) ↔ ∃ x, items[i]? = some x ∧ (value x).Alike key
  gap : ∀ i, outcome = .ok (.gap i) ↔
    (∀ x ∈ items, Datum.Comparable (value x) key ∧ ¬(value x).Alike key) ∧
      i = items.countP fun x => (value x).Below key

theorem refused_iff (a b : Datum) : (∃ failure, a.compare b = .error failure) ↔ ¬Datum.Comparable a b := by
  constructor
  · rintro ⟨failure, refused⟩ comparable
    obtain ⟨order, answer⟩ := (Datum.comparable_iff a b).mp comparable
    rw [refused] at answer
    cases answer
  · exact fun apart => ⟨_, Datum.compare_refused a b apart⟩

-- The whole outcome is settled, the operands that a failure names apart.
theorem linear_unique (items : List α) (outcome other : Except DatumError Slot)
    (left : Linear value key items outcome) (right : Linear value key items other) :
    outcome.toOption = other.toOption := by
  cases outcome with
  | error failure =>
      obtain ⟨_, same⟩ := right.fails.mpr (left.fails.mp ⟨failure, rfl⟩)
      rw [same]
      rfl
  | ok slot =>
      cases slot with
      | hit i => rw [(right.hit i).mpr ((left.hit i).mp rfl)]
      | gap i => rw [(right.gap i).mpr ((left.gap i).mp rfl)]

section Located

variable (items : List α) (ascending : Ascending value items)

include ascending

theorem alike_once (i j : Nat) (x y : α) (first : items[i]? = some x) (second : items[j]? = some y)
    (left : (value x).Alike key) (right : (value y).Alike key) : i = j := by
  obtain ⟨iIn, rfl⟩ := List.getElem?_eq_some_iff.mp first
  obtain ⟨jIn, rfl⟩ := List.getElem?_eq_some_iff.mp second
  have both := Datum.alike_trans _ _ _ left (Datum.alike_symm _ _ right)
  rcases Nat.lt_trichotomy i j with less | same | more
  · exact absurd both (Datum.not_alike_of_below _ _ (List.pairwise_iff_getElem.mp ascending i j iIn jIn less))
  · exact same
  · exact absurd both (Datum.not_alike_of_above _ _ (List.pairwise_iff_getElem.mp ascending j i jIn iIn more))

variable (outcome : Except DatumError Slot) (located : Located value key items outcome)

include located

theorem located_hit_iff (i : Nat) :
    outcome = .ok (.hit i) ↔ ∃ x, items[i]? = some x ∧ (value x).Alike key := by
  cases located with
  | hit below item above split less alike greater =>
      have here : items[below.length]? = some item := by
        rw [split, List.getElem?_append_right (le_refl _), Nat.sub_self, List.getElem?_cons_zero]
      constructor
      · rintro ⟨⟩
        exact ⟨item, here, alike⟩
      · rintro ⟨x, found, also⟩
        rw [alike_once value key items ascending i _ x item found here also alike]
  | gap below above split less greater =>
      constructor
      · rintro ⟨⟩
      · rintro ⟨x, found, alike⟩
        exact absurd alike
          (gap_absent value key items below above split less greater x (List.mem_of_getElem? found))
  | refused item inside apart failure =>
      constructor
      · rintro ⟨⟩
      · rintro ⟨x, found, alike⟩
        exact absurd alike
          (refused_absent value key items item ascending inside apart x (List.mem_of_getElem? found))

omit ascending

theorem located_gap_iff (i : Nat) :
    outcome = .ok (.gap i) ↔
      (∀ x ∈ items, Datum.Comparable (value x) key ∧ ¬(value x).Alike key) ∧
        i = items.countP fun x => (value x).Below key := by
  cases located with
  | hit below item above split less alike greater =>
      constructor
      · rintro ⟨⟩
      · rintro ⟨apart, _⟩
        exact absurd alike (apart item (split ▸ List.mem_append_right below List.mem_cons_self)).2
  | gap below above split less greater =>
      have higher (x : α) (inside : x ∈ above) : ¬decide ((value x).Below key) = true := fun lower =>
        lt_asymm ((Datum.below_iff _ _).mp (of_decide_eq_true lower)).2
          ((Datum.below_iff _ _).mp (greater x inside)).2
      have count : items.countP (fun x => (value x).Below key) = below.length := by
        rw [split, List.countP_append, List.countP_eq_zero.mpr higher,
          List.countP_eq_length.mpr fun x inside => decide_eq_true (less x inside), Nat.add_zero]
      rw [count]
      constructor
      · rintro ⟨⟩
        exact ⟨fun x inside => ⟨gap_comparable value key items below above split less greater x inside,
          gap_absent value key items below above split less greater x inside⟩, rfl⟩
      · rintro ⟨_, rfl⟩
        rfl
  | refused item inside apart failure =>
      constructor
      · rintro ⟨⟩
      · rintro ⟨comparable, _⟩
        exact absurd (comparable item inside).1 apart

theorem located_fails (x : α) (inside : x ∈ items) (apart : ¬Datum.Comparable (value x) key) :
    ∃ failure, outcome = .error failure := by
  cases located with
  | hit below item above split less alike greater =>
      exact absurd (hit_comparable value key items below above item split less alike greater x inside) apart
  | gap below above split less greater =>
      exact absurd (gap_comparable value key items below above split less greater x inside) apart
  | refused _ _ _ failure => exact ⟨failure, rfl⟩

include ascending

theorem located_linear
    (blames : ∀ failure, outcome = .error failure → ∃ x ∈ items, (value x).compare key = .error failure) :
    Linear value key items outcome where
  fails := by
    constructor
    · rintro ⟨failure, same⟩
      obtain ⟨x, inside, refused⟩ := blames failure same
      exact ⟨x, inside, failure, refused⟩
    · rintro ⟨x, inside, refused⟩
      exact located_fails value key items outcome located x inside ((refused_iff _ _).mp refused)
  blames := blames
  hit := located_hit_iff value key items ascending outcome located
  gap := located_gap_iff value key items outcome located

end Located

section Run

variable (items : Array α)

theorem run_blames (probing : Probing items.size) (failure : DatumError)
    (failed : probing.run (answers (fun x => (value x).compare key) items) none = .error failure) :
    ∃ x ∈ items.toList, (value x).compare key = .error failure := by
  obtain ⟨⟨⟩⟩ | ⟨i, refused⟩ := run_source _ none probing failure failed
  obtain ⟨x, found, answer⟩ := answers_item (fun x => (value x).compare key) items i
  exact ⟨x, List.mem_of_getElem? found, answer.symm.trans refused⟩

theorem run_linear (ascending : Ascending value items.toList) (probing : Probing items.size)
    (bisects : probing.Bisects) :
    Linear value key items.toList (probing.run (answers (fun x => (value x).compare key) items) none) :=
  located_linear value key items.toList ascending _ (run_located value key items ascending probing bisects)
    (run_blames value key items probing)

end Run

/-- The search for a key among ascending items answers as a look at all of them does. So does any other binary search
that looks at the middle item first, except that its failure may name another item. -/
theorem search_linear (items : Array α) (ascending : Ascending value items.toList) :
    let order (item : α) := (value item).compare key
    Linear value key items.toList (search order items) ∧
      ∀ probing : Probing items.size, probing.Bisects →
        let outcome := probing.run (answers order items) none
        Linear value key items.toList outcome ∧ outcome.toOption = (search order items).toOption := by
  intro order
  have searched : Linear value key items.toList (search order items) := by
    rw [← halving_searches]
    exact run_linear value key items ascending _ (halving_bisects items.size)
  refine ⟨searched, fun probing bisects => ?_⟩
  have ran := run_linear value key items ascending probing bisects
  exact ⟨ran, linear_unique value key items.toList _ _ ran searched⟩

-- NULL, then integers and a double. The two searches blame another item for a text that is no number.
theorem search_linear_mixed :
    let items : Array Datum := #[.null, .integer 1, .double (.ofBits 0x4004000000000000), .integer 4]
    let found (key : Datum) := search (fun x : Datum => x.compare key) items
    let ran (key : Datum) := (descending items.size).run (answers (fun x : Datum => x.compare key) items) none
    Ascending id items.toList ∧ (descending items.size).Bisects ∧
      found (.double (.ofBits 0x4010000000000000)) = .ok (.hit 3) ∧ found (.integer 2) = .ok (.gap 2) ∧
      ran (.integer 2) = .ok (.gap 2) ∧
      found (.text "2") = .error (.incomparable (some .double) (some .text)) ∧
      ran (.text "2") = .error (.incomparable (some .integer) (some .text)) ∧
      (ran (.text "2")).toOption = (found (.text "2")).toOption := by
  intro items found ran
  have ascending : Ascending id items.toList := by
    rw [Ascending]
    decide +kernel
  have bisects := descending_bisects items.size
  have linear (key : Datum) := search_linear id key items ascending
  refine ⟨ascending, bisects, ((linear _).1.hit 3).mpr ⟨_, rfl, by decide +kernel⟩,
    ((linear _).1.gap 2).mpr (by decide +kernel), (((linear _).2 _ bisects).1.gap 2).mpr (by decide +kernel),
    by decide +kernel, by decide +kernel, ((linear _).2 _ bisects).2⟩

end Aggregation
