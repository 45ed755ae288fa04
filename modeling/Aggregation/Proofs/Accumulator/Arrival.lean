import Mathlib
import Aggregation.Proofs.Agreement

set_option autoImplicit false

namespace Aggregation

def Identical (rows : List Datum) : Prop :=
  ∀ x ∈ rows, ∀ y ∈ rows, x.Alike y → x = y

theorem last_alike_exists (given : List Datum) (row : Datum) (inside : row ∈ given) :
    ∃ last, LastAlike given last ∧ row.Alike last := by
  have listed : row ∈ given.filter fun other => other.Alike row :=
    List.mem_filter.mpr ⟨inside, by simpa using Datum.alike_refl row⟩
  obtain ⟨last, found⟩ := Option.isSome_iff_exists.mp
    (List.getLast?_isSome.mpr (List.ne_nil_of_mem listed))
  have alike : last.Alike row := by simpa using (List.mem_filter.mp (List.mem_of_getLast? found)).2
  have classes : (fun other : Datum => decide (other.Alike row)) =
      fun other => decide (other.Alike last) := by
    funext other
    exact decide_eq_decide.mpr
      ⟨fun near => Datum.alike_trans _ _ _ near (Datum.alike_symm _ _ alike),
        fun near => Datum.alike_trans _ _ _ near alike⟩
  rw [classes] at found
  exact ⟨last, found, Datum.alike_symm _ _ alike⟩

theorem last_alike_iff (given : List Datum) (row : Datum) (identical : Identical given) :
    LastAlike given row ↔ row ∈ given := by
  refine ⟨last_alike_given given row, fun inside => ?_⟩
  obtain ⟨last, lastAlike, alike⟩ := last_alike_exists given row inside
  rwa [identical row inside last (last_alike_given given last lastAlike) alike]

theorem last_of_each_congr (given others rows : List Datum) (identical : Identical given)
    (same : ∀ x, x ∈ given ↔ x ∈ others) (kept : LastOfEach given rows) : LastOfEach others rows where
  ascending := kept.ascending
  last_iff row := by
    have alsoIdentical : Identical others := fun x xIn y yIn =>
      identical x ((same x).mpr xIn) y ((same y).mpr yIn)
    rw [kept.last_iff, last_alike_iff given row identical, last_alike_iff others row alsoIdentical, same]

namespace Accumulator

def withoutNull (rows : List Datum) : List Datum :=
  rows.filter (!·.isNull)

theorem mem_without_null (rows : List Datum) (row : Datum) :
    row ∈ withoutNull rows ↔ row ∈ rows ∧ row ≠ .null := by
  rw [withoutNull, List.mem_filter, Bool.not_eq_true', ← Bool.not_eq_true, is_null_iff]

theorem add_distinct_state (acc : Accumulator) (row : Datum) :
    ∃ held, (acc.add row true).2 = { acc with held := held } := by
  by_cases null : row = .null
  · exact ⟨acc.held, by rw [add, if_pos ((is_null_iff row).mpr null)]⟩
  · rw [add_distinct acc row null]
    cases hold acc.held row with
    | error failure => exact ⟨acc.held, rfl⟩
    | ok held => exact ⟨held, rfl⟩

theorem fed_distinct [PowerFunction] (acc : Accumulator) (given rows : List Datum) (holds : Holds acc given)
    (comparable : ∀ x ∈ given ++ rows, ∀ y ∈ given ++ rows, Datum.Comparable x y) :
    acc.taken rows true = rows.map (fun _ => true) ∧
      ∃ held, acc.fed rows true = { acc with held := held } ∧
        Holds (acc.fed rows true) (given ++ withoutNull rows) := by
  induction rows generalizing acc given with
  | nil => exact ⟨rfl, acc.held, rfl, by rwa [withoutNull, List.filter_nil, List.append_nil]⟩
  | cons row rows ih =>
      rcases add_distinct_holds acc given row holds with ⟨done, next, _⟩ | ⟨failure, _, x, inside, apart⟩
      · obtain ⟨held, state⟩ := add_distinct_state acc row
        have fewer : ∀ x ∈ (if row.isNull then given else given ++ [row]) ++ rows,
            x ∈ given ++ row :: rows := by
          intro x inside
          split at inside
          · rcases List.mem_append.mp inside with old | later
            · exact List.mem_append_left _ old
            · exact List.mem_append_right _ (List.mem_cons_of_mem _ later)
          · rwa [List.append_assoc] at inside
        obtain ⟨flags, final, finalState, kept⟩ := ih (acc.add row true).2 _ next
          fun x xIn y yIn => comparable x (fewer x xIn) y (fewer y yIn)
        refine ⟨?_, final, ?_, ?_⟩
        · rw [taken_cons, flags, done]
          rfl
        · exact finalState.trans (by rw [state])
        · have split : (if row.isNull then given else given ++ [row]) ++ withoutNull rows =
              given ++ withoutNull (row :: rows) := by
            rw [withoutNull, withoutNull, List.filter_cons]
            cases row.isNull <;> simp
          exact split ▸ kept
      · have given : x ∈ given := last_alike_given given x ((holds.kept.last_iff x).mp inside)
        exact absurd (comparable x (List.mem_append_left _ given) row (by simp)) apart

theorem unheld_holds (acc : Accumulator) (unheld : acc.held = #[]) : Holds acc [] :=
  ⟨unheld ▸ last_of_each_nil, by simp⟩

/-- Given lists with the same rows other than NULL, all of them comparable and no two alike but not the same, an
accumulator takes in every row as a distinct one and comes to the same state, and so to the same answer. -/
theorem distinct_arrival_free [PowerFunction] (acc : Accumulator) (rows others : List Datum)
    (unheld : acc.held = #[]) (same : ∀ x, x ≠ .null → (x ∈ rows ↔ x ∈ others))
    (comparable : ∀ x ∈ rows, ∀ y ∈ rows, Datum.Comparable x y) (identical : Identical rows) :
    acc.taken rows true = rows.map (fun _ => true) ∧
      acc.taken others true = others.map (fun _ => true) ∧
      (∀ x, x ∈ (acc.fed rows true).held.toList ↔ x ∈ rows ∧ x ≠ .null) ∧
      acc.fed rows true = acc.fed others true ∧
      ∀ target, (acc.fed rows true).finish target true = (acc.fed others true).finish target true := by
  have alsoComparable : ∀ x ∈ others, ∀ y ∈ others, Datum.Comparable x y := by
    intro x xIn y yIn
    by_cases xNull : x = .null
    · exact .inl xNull
    by_cases yNull : y = .null
    · exact .inr (.inl yNull)
    exact comparable x ((same x xNull).mpr xIn) y ((same y yNull).mpr yIn)
  obtain ⟨flags, held, state, holds⟩ := fed_distinct acc [] rows (unheld_holds acc unheld) comparable
  obtain ⟨otherFlags, otherHeld, otherState, otherHolds⟩ :=
    fed_distinct acc [] others (unheld_holds acc unheld) alsoComparable
  have members : ∀ x, x ∈ withoutNull rows ↔ x ∈ withoutNull others := by
    intro x
    rw [mem_without_null, mem_without_null]
    exact and_congr_left (same x)
  have shared : Identical (withoutNull rows) := fun x xIn y yIn =>
    identical x ((mem_without_null rows x).mp xIn).1 y ((mem_without_null rows y).mp yIn).1
  have listed (x : Datum) : x ∈ (acc.fed rows true).held.toList ↔ x ∈ rows ∧ x ≠ .null := by
    rw [holds.kept.last_iff]
    exact (last_alike_iff (withoutNull rows) x shared).trans (mem_without_null rows x)
  have list := last_of_each_unique _ _ _ otherHolds.kept
    (last_of_each_congr _ _ _ shared members holds.kept)
  have final : acc.fed rows true = acc.fed others true := by
    rw [state, otherState] at list
    have sameHeld : held = otherHeld := Array.toList_inj.mp list
    rw [state, otherState, sameHeld]
  exact ⟨flags, otherFlags, listed, final, fun target => by rw [final]⟩

theorem distinct_arrival_free_sum :
    let acc := (empty .sum .double).after [.add (.integer 3) false]
    let rows := [.integer 2, .null, .double .one, .integer 2]
    let others := [.double .one, .integer 2]
    acc.held = #[] ∧ (∀ x, x ≠ .null → (x ∈ rows ↔ x ∈ others)) ∧
      (∀ x ∈ rows, ∀ y ∈ rows, Datum.Comparable x y) ∧ Identical rows ∧
      (acc.fed rows true).finish .integer true = (acc.fed others true).finish .integer true ∧
      ((acc.fed others true).finish .integer true).1 = .ok (.integer 6) := by
  intro acc rows others
  have unheld : acc.held = #[] := by decide +kernel
  have same : ∀ x, x ≠ .null → (x ∈ rows ↔ x ∈ others) := by
    intro x present
    simp only [rows, others, List.mem_cons, List.not_mem_nil, or_false]
    tauto
  have comparable : ∀ x ∈ rows, ∀ y ∈ rows, Datum.Comparable x y := by decide +kernel
  have identical : Identical rows := by
    rw [Identical]
    decide +kernel
  have answers := (distinct_arrival_free acc rows others unheld same comparable identical).2.2.2.2
  exact ⟨unheld, same, comparable, identical, answers .integer, by decide +kernel⟩

end Accumulator

end Aggregation
