import Mathlib
import Aggregation.Proofs.Bisection

set_option autoImplicit false

namespace Aggregation

-- Any way to search, as the tree of the indices that it looks at. An answer that is missing is made up, as equal, and
-- the failure is kept aside until the search ends.
inductive Probing (size : Nat) where
  | done (slot : Slot)
  | look (index : Fin size) (next : Ordering → Probing size)

namespace Probing

variable {size : Nat} {ε : Type}

def found (order : Fin size → Ordering) : Probing size → Slot
  | .done slot => slot
  | .look index next => found order (next (order index))

def run (answer : Fin size → Except ε Ordering) (failure : Option ε) : Probing size → Except ε Slot
  | .done slot => match failure with
      | none => .ok slot
      | some kept => .error kept
  | .look index next => match answer index with
      | .ok order => run answer failure (next order)
      | .error other => run answer (some other) (next .eq)

theorem run_found (answer : Fin size → Except ε Ordering) (order : Fin size → Ordering) (probing : Probing size)
    (answered : ∀ i, answer i = .ok (order i)) : probing.run answer none = .ok (probing.found order) := by
  induction probing with
  | done slot => rfl
  | look index next ih =>
      rw [run, answered index]
      exact ih (order index)

theorem run_kept (answer : Fin size → Except ε Ordering) (kept : ε) (probing : Probing size) :
    ∃ failure, probing.run answer (some kept) = .error failure := by
  induction probing generalizing kept with
  | done slot => exact ⟨kept, rfl⟩
  | look index next ih =>
      rw [run]
      cases answer index with
      | ok order => exact ih order kept
      | error other => exact ih .eq other

theorem run_source (answer : Fin size → Except ε Ordering) (kept : Option ε) (probing : Probing size)
    (failure : ε) (failed : probing.run answer kept = .error failure) :
    kept = some failure ∨ ∃ i, answer i = .error failure := by
  induction probing generalizing kept with
  | done slot =>
      cases kept with
      | none => cases failed
      | some first => exact .inl (congrArg some (Except.error.inj failed))
  | look index next ih =>
      rw [run] at failed
      split at failed
      next order given => exact ih order kept failed
      next other given =>
        rcases ih .eq (some other) failed with same | elsewhere
        · exact .inr ⟨index, Option.some.inj same ▸ given⟩
        · exact .inr elsewhere

def Rises (order : Fin size → Ordering) : Prop :=
  ∀ i j, i ≤ j → (order j = .lt → order i = .lt) ∧ (order i = .gt → order j = .gt)

inductive Fits (order : Fin size → Ordering) : Slot → Prop where
  | hit (index : Fin size) (equal : order index = .eq) : Fits order (.hit index)
  | gap (point : Nat) (inside : point ≤ size) (before : ∀ i : Fin size, i < point → order i = .lt)
      (after : ∀ i : Fin size, point ≤ i → order i = .gt) : Fits order (.gap point)

-- What is known of a binary search: it finds a slot that fits where the items are in order, and it looks at
-- the middle one first.
structure Bisects (probing : Probing size) : Prop where
  finds : ∀ order, Rises order → Fits order (probing.found order)
  middle : 0 < size → ∃ index next, index.val = size / 2 ∧ probing = .look index next

def halve (low high : Nat) (inside : high ≤ size) : Probing size :=
  if active : low < high then
    .look ⟨(low + high) / 2, by omega⟩ fun
      | .lt => halve ((low + high) / 2 + 1) high inside
      | .eq => .done (.hit ((low + high) / 2))
      | .gt => halve low ((low + high) / 2) (by omega)
  else .done (.gap low)
termination_by high - low
decreasing_by all_goals omega

def halving (size : Nat) : Probing size :=
  halve 0 size (Nat.le_refl size)

-- Halves the `rest` items from `base` on down to one, whatever is equal, and asks once more about that one.
def descend (base rest : Nat) (filled : 0 < rest) (inside : base + rest ≤ size) : Probing size :=
  if more : 1 < rest then
    .look ⟨base + rest / 2, by omega⟩ fun
      | .gt => descend base (rest - rest / 2) (by omega) (by omega)
      | .lt | .eq => descend (base + rest / 2) (rest - rest / 2) (by omega) (by omega)
  else
    .look ⟨base, by omega⟩ fun
      | .lt => .done (.gap (base + 1))
      | .eq => .done (.hit base)
      | .gt => .done (.gap base)
termination_by rest
decreasing_by all_goals omega

def descending (size : Nat) : Probing size :=
  if filled : 0 < size then descend 0 size filled (by omega) else .done (.gap 0)

section Finding

variable (order : Fin size → Ordering) (rises : Rises order)

include rises

-- What is left of `low` is lower than the key, and what stands from `high` on is higher.
theorem halve_fits (low high : Nat) (inside : high ≤ size) (le : low ≤ high)
    (before : ∀ i : Fin size, i < low → order i = .lt) (after : ∀ i : Fin size, high ≤ i → order i = .gt) :
    Fits order ((halve low high inside).found order) := by
  fun_induction halve low high inside with
  | case1 low high inside active ih₁ ih₂ =>
      rw [found]
      cases middle : order ⟨(low + high) / 2, by omega⟩ with
      | lt => exact ih₁ (by omega) (fun i less => (rises i ⟨_, _⟩ (Nat.le_of_lt_succ less)).1 middle) after
      | eq => exact .hit _ middle
      | gt => exact ih₂ (by omega) before fun i le => (rises ⟨_, _⟩ i le).2 middle
  | case2 low high inside idle =>
      rw [found]
      exact .gap low (by omega) before fun i least => after i (by omega)

-- The item at `base` is not higher than the key, if it was ever asked, and what stands behind the rest is.
theorem descend_fits (base rest : Nat) (filled : 0 < rest) (inside : base + rest ≤ size)
    (start : ∀ i : Fin size, i.val = base → order i = .gt → base = 0)
    (after : ∀ i : Fin size, base + rest ≤ i → order i = .gt) :
    Fits order ((descend base rest filled inside).found order) := by
  fun_induction descend base rest filled inside with
  | case1 base rest filled inside more left right =>
      have looked : base + rest / 2 < size := by omega
      have onward (other : order ⟨base + rest / 2, looked⟩ ≠ .gt) :=
        right (fun i same above => absurd ((Fin.ext same : i = ⟨base + rest / 2, looked⟩) ▸ above) other)
          fun i least => after i (by omega)
      rw [found]
      cases middle : order ⟨base + rest / 2, looked⟩ with
      | lt => exact onward (by rw [middle]; decide)
      | eq => exact onward (by rw [middle]; decide)
      | gt =>
          have shorter : base + rest / 2 ≤ base + (rest - rest / 2) := by omega
          exact left start fun i least => (rises ⟨base + rest / 2, looked⟩ i (shorter.trans least)).2 middle
  | case2 base rest filled inside single =>
      have one : rest = 1 := by omega
      rw [found]
      cases last : order ⟨base, by omega⟩ with
      | lt =>
          refine .gap (base + 1) (by omega) (fun i less => ?_) fun i least => after i (by omega)
          exact (rises i ⟨base, _⟩ (Nat.le_of_lt_succ less)).1 last
      | eq => exact .hit _ last
      | gt =>
          have first : base = 0 := start ⟨base, by omega⟩ rfl last
          refine .gap base (by omega) (fun i less => by omega) fun i least => ?_
          exact (rises ⟨base, _⟩ i least).2 last

end Finding

theorem halving_bisects (size : Nat) : (halving size).Bisects where
  finds order rises :=
    halve_fits order rises 0 size _ (Nat.zero_le size) (fun i less => absurd less (Nat.not_lt_zero _))
      fun i least => absurd i.isLt (Nat.not_lt.mpr least)
  middle filled := by
    refine ⟨_, _, ?_, by rw [halving, halve, dif_pos filled]⟩
    change (0 + size) / 2 = size / 2
    rw [Nat.zero_add]

theorem descending_bisects (size : Nat) : (descending size).Bisects where
  finds order rises := by
    rw [descending]
    split
    next filled =>
      exact descend_fits order rises 0 size filled _ (fun _ _ _ => rfl)
        fun i least => absurd i.isLt (by omega)
    next empty =>
      exact .gap 0 (Nat.zero_le size) (fun i => absurd i.isLt (by omega)) fun i => absurd i.isLt (by omega)
  middle filled := by
    rw [descending, dif_pos filled, descend]
    split
    next more => exact ⟨_, _, by simp, rfl⟩
    next single => exact ⟨_, _, by simp; omega, rfl⟩

section Search

variable {α : Type} (order : α → Except ε Ordering) (items : Array α)

def answers (i : Fin items.size) : Except ε Ordering :=
  order items[i]

theorem answers_item (i : Fin items.size) :
    ∃ item, items.toList[i.val]? = some item ∧ answers order items i = order item := by
  refine ⟨items[i], ?_, rfl⟩
  rw [Array.getElem?_toList, Array.getElem?_eq_getElem i.isLt]
  rfl

theorem halve_probes (fuel low high : Nat) (inside : high ≤ items.size) (enough : high - low < 2 ^ fuel) :
    (halve low high inside).run (answers order items) none = probe order items fuel low high := by
  induction fuel generalizing low high with
  | zero =>
      rw [Nat.pow_zero] at enough
      rw [halve, dif_neg (by omega)]
      rfl
  | succ fuel ih =>
      rw [Nat.pow_succ] at enough
      rw [halve, probe]
      by_cases active : low < high
      · have present : items[(low + high) / 2]? = some (items[(low + high) / 2]) :=
          Array.getElem?_eq_getElem (by omega)
        simp only [dif_pos active, if_pos active, present, run, answers, Fin.getElem_fin]
        cases answer : order items[(low + high) / 2] with
        | error failure => rfl
        | ok place =>
            cases place with
            | lt => exact ih _ _ _ (by omega)
            | eq => rfl
            | gt => exact ih _ _ _ (by omega)
      · rw [dif_neg active, if_neg active]
        rfl

theorem halving_searches : (halving items.size).run (answers order items) none = search order items :=
  halve_probes order items _ 0 items.size _ Nat.lt_log2_self

end Search

end Probing

end Aggregation
