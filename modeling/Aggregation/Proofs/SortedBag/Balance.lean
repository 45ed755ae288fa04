import Mathlib
import Aggregation.Proofs.Agreement
import Aggregation.Proofs.SortedBag.Refinement

set_option autoImplicit false

namespace Aggregation

inductive Change where
  | put (value : Datum)
  | take (value : Datum)
deriving DecidableEq

namespace Change

def request : Change → SortedBag.Request
  | .put value => .add value
  | .take value => .remove value

def act (bag : SortedBag) : Change → Bool × SortedBag
  | .put value => bag.put value
  | .take value => bag.take value

def worth (value : Datum) : Change → Int
  | .put other => if other.Alike value then 1 else 0
  | .take other => if other.Alike value then -1 else 0

def net (value : Datum) (changes : List Change) : Int :=
  (changes.map (worth value)).sum

theorem net_append (value : Datum) (changes more : List Change) :
    net value (changes ++ more) = net value changes + net value more := by
  rw [net, List.map_append, List.sum_append, net, net]

def brought : List Change → List Datum
  | [] => []
  | .put value :: changes => value :: brought changes
  | .take _ :: changes => brought changes

theorem mem_brought (changes : List Change) (value : Datum) :
    value ∈ brought changes ↔ .put value ∈ changes := by
  induction changes with
  | nil => simp [brought]
  | cons change changes ih => cases change <;> simp [brought, ih]

end Change

theorem Datum.alike_congr (x y value : Datum) (alike : x.Alike y) : x.Alike value ↔ y.Alike value :=
  ⟨alike_trans _ _ _ (alike_symm _ _ alike), alike_trans _ _ _ alike⟩

theorem Tally.count_of_append (classes others : List Entry) (value : Datum) :
    countOf (classes ++ others) value = countOf classes value + countOf others value := by
  rw [countOf, countOf, countOf, List.filter_append, List.map_append, List.sum_append]

theorem Tally.count_of_cons (entry : Entry) (classes : List Entry) (value : Datum) :
    countOf (entry :: classes) value =
      (if entry.value.Alike value then entry.count else 0) + countOf classes value := by
  rw [countOf, countOf, List.filter_cons]
  by_cases alike : entry.value.Alike value <;> simp [alike]

namespace SortedBag

def made (bag : SortedBag) : List Change → List Change
  | [] => []
  | change :: changes =>
      match bag.perform change.request with
      | (.ok (.flag true), after) => change :: after.made changes
      | (_, after) => after.made changes

def changed (bag : SortedBag) (changes : List Change) : SortedBag :=
  bag.after (changes.map Change.request)

structure Balances (bag : SortedBag) (made : List Change) (after : SortedBag) : Prop
    extends Sound after where
  collecting : after.isFrozen = false
  counts : ∀ value, (after.countOf value : Int) = bag.countOf value + Change.net value made
  origin : ∀ value ∈ after.values, value ∈ bag.values ∨ .put value ∈ made

theorem balances_nothing (bag : SortedBag) (sound : bag.Sound) (collecting : bag.isFrozen = false) :
    Balances bag [] bag :=
  ⟨sound, collecting, fun _ => (Int.add_zero _).symm, fun _ => .inl⟩

theorem balances_trans (bag next after : SortedBag) (made more : List Change)
    (first : Balances bag made next) (second : Balances next more after) :
    Balances bag (made ++ more) after := by
  refine ⟨second.toSound, second.collecting, fun value => ?_, fun value inside => ?_⟩
  · rw [second.counts, first.counts, Change.net_append, Int.add_assoc]
  · rw [List.mem_append]
    rcases second.origin value inside with old | put
    · exact (first.origin value old).imp_right .inl
    · exact .inr (.inr put)

section Change

variable (bag : SortedBag) (sound : bag.Sound) (change : Change)

def settled : List Change := if (change.act bag).1 then [change] else []

include sound

theorem act_sound : (change.act bag).2.Sound := by
  cases change with
  | put value => exact sound_put bag value sound
  | take value => exact sound_take bag value sound

theorem act_count (value : Datum) : ((change.act bag).2.countOf value : Int) =
    bag.countOf value + Change.net value (settled bag change) := by
  have net : Change.net value (settled bag change) = if (change.act bag).1 then change.worth value else 0 := by
    rw [settled]
    split <;> simp [Change.net]
  rw [net, Tally.count_of_eq _ value (act_sound bag sound change), Tally.count_of_eq bag value sound]
  cases change with
  | put other =>
      rw [Change.act, Change.worth]
      have outcome := put_outcome bag other sound
      generalize bag.put other = result at outcome
      cases outcome with
      | raised below item above split less alike greater =>
          rw [split, Tally.count_of_append, Tally.count_of_append, Tally.count_of_cons, Tally.count_of_cons]
          simp only [Datum.alike_congr _ _ value alike]
          split <;> push_cast <;> omega
      | inserted below above split less greater =>
          rw [split, Tally.count_of_append, Tally.count_of_append, Tally.count_of_cons]
          simp only
          split <;> push_cast <;> omega
      | refused item inside apart => rw [if_neg Bool.false_ne_true, Int.add_zero]
  | take other =>
      rw [Change.act, Change.worth]
      have occurring := sound.occurring
      have outcome := take_outcome bag other sound
      generalize bag.take other = result at outcome
      cases outcome with
      | lowered below item above split less alike greater more =>
          rw [split, Tally.count_of_append, Tally.count_of_append, Tally.count_of_cons, Tally.count_of_cons]
          simp only [Datum.alike_congr _ _ value alike]
          split <;> push_cast <;> omega
      | dropped below item above split less alike greater last =>
          rw [split, Tally.count_of_append, Tally.count_of_append, Tally.count_of_cons]
          simp only [Datum.alike_congr _ _ value alike, last]
          split <;> push_cast <;> omega
      | missed absent => rw [if_neg Bool.false_ne_true, Int.add_zero]

theorem act_values (value : Datum) (inside : value ∈ (change.act bag).2.values) :
    value ∈ bag.values ∨ .put value ∈ settled bag change := by
  cases change with
  | put other =>
      rw [settled]
      rw [Change.act] at inside ⊢
      have outcome := put_outcome bag other sound
      generalize bag.put other = result at outcome inside
      cases outcome with
      | raised below item above split less alike greater =>
          left
          simpa [values, split] using inside
      | inserted below above split less greater =>
          have cases : value = other ∨ value ∈ bag.values := by
            simpa [values, split, or_left_comm] using inside
          rcases cases with rfl | old
          · exact .inr List.mem_cons_self
          · exact .inl old
      | refused item inside apart => exact .inl inside
  | take other =>
      rw [Change.act] at inside
      left
      have outcome := take_outcome bag other sound
      generalize bag.take other = result at outcome inside
      cases outcome with
      | lowered below item above split less alike greater more =>
          simpa [values, split] using inside
      | dropped below item above split less alike greater last =>
          rw [values, split, List.map_append, List.map_cons]
          rw [values, List.map_append] at inside
          exact (List.sublist_cons_self _ _).append_left _ |>.subset inside
      | missed absent => exact inside

omit sound in
theorem perform_change (collecting : bag.isFrozen = false) :
    bag.perform change.request = (.ok (.flag (change.act bag).1), (change.act bag).2) := by
  cases change with
  | put value =>
      rw [Change.request, perform, add, SortedBag.change, if_neg (by simp [collecting])]
      rfl
  | take value =>
      rw [Change.request, perform, remove, SortedBag.change, if_neg (by simp [collecting])]
      rfl

omit sound in
theorem act_collecting (collecting : bag.isFrozen = false) : (change.act bag).2.isFrozen = false := by
  cases change with
  | put value => rwa [isFrozen, Change.act, put_phase, ← isFrozen]
  | take value => rwa [isFrozen, Change.act, take_phase, ← isFrozen]

theorem act_balances (collecting : bag.isFrozen = false) :
    Balances bag (settled bag change) (change.act bag).2 :=
  ⟨act_sound bag sound change, act_collecting bag change collecting, act_count bag sound change,
    act_values bag sound change⟩

end Change

theorem changed_balances (bag : SortedBag) (sound : bag.Sound) (collecting : bag.isFrozen = false)
    (changes : List Change) : Balances bag (bag.made changes) (bag.changed changes) := by
  induction changes generalizing bag with
  | nil => exact balances_nothing bag sound collecting
  | cons change changes ih =>
      have first := act_balances bag sound change collecting
      have rest := ih _ first.toSound first.collecting
      have final : bag.changed (change :: changes) = (change.act bag).2.changed changes := by
        rw [changed, List.map_cons, after, List.foldl_cons, perform_change bag change collecting]
        rfl
      have settles : bag.made (change :: changes) =
          settled bag change ++ (change.act bag).2.made changes := by
        rw [made, perform_change bag change collecting, settled]
        cases (change.act bag).1 <;> rfl
      rw [final, settles]
      exact balances_trans _ _ _ _ _ first rest

theorem changed_counts_perm (bag : SortedBag) (sound : bag.Sound) (collecting : bag.isFrozen = false)
    (changes others : List Change) (perm : (bag.made changes).Perm (bag.made others)) (value : Datum) :
    (bag.changed changes).countOf value = (bag.changed others).countOf value := by
  have left := (changed_balances bag sound collecting changes).counts value
  have right := (changed_balances bag sound collecting others).counts value
  have same : Change.net value (bag.made changes) = Change.net value (bag.made others) := (perm.map _).sum_eq
  omega

end SortedBag

end Aggregation
