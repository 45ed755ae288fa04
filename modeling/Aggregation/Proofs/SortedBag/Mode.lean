import Mathlib
import Aggregation.Proofs.Accumulator.Arrival
import Aggregation.Proofs.Representation
import Aggregation.Proofs.SortedBag.Balance
import Aggregation.Proofs.SortedBag.Positions

set_option autoImplicit false

namespace Aggregation

namespace RunTable

structure Leads (lengths : List Nat) (chosen : Option Nat) (longest : Nat) : Prop where
  bound : ∀ length ∈ lengths, length ≤ longest
  first : ∀ run, chosen = some run →
    lengths[run]? = some longest ∧ ∀ length ∈ lengths.take run, length < longest

section Leads

variable (before : List Nat) (chosen : Option Nat) (longest length : Nat)
  (leads : Leads before chosen longest)

include leads

theorem leads_longer (longer : longest < length) :
    Leads (before ++ [length]) (some before.length) length := by
  refine ⟨fun other inside => ?_, fun run same => ?_⟩
  · rcases List.mem_append.mp inside with earlier | here
    · exact (leads.bound other earlier).trans longer.le
    · exact (List.mem_singleton.mp here).le
  · obtain rfl := Option.some.inj same
    rw [List.getElem?_concat_length, List.take_left]
    exact ⟨rfl, fun other inside => (leads.bound other inside).trans_lt longer⟩

theorem leads_kept (kept : ¬longest < length) : Leads (before ++ [length]) chosen longest := by
  refine ⟨fun other inside => ?_, fun run same => ?_⟩
  · rcases List.mem_append.mp inside with earlier | here
    · exact leads.bound other earlier
    · exact List.mem_singleton.mp here ▸ not_lt.mp kept
  · obtain ⟨found, less⟩ := leads.first run same
    have inside := (List.getElem?_eq_some_iff.mp found).1
    rw [List.getElem?_append_left inside, List.take_append_of_le_length inside.le]
    exact ⟨found, less⟩

end Leads

theorem first_longest_leads (before lengths : List Nat) (chosen : Option Nat) (longest : Nat)
    (leads : Leads before chosen longest) :
    ∃ greatest, Leads (before ++ lengths) (firstLongest chosen longest before.length lengths) greatest := by
  induction lengths generalizing before chosen longest with
  | nil => exact ⟨longest, by rwa [List.append_nil]⟩
  | cons length lengths ih =>
      have passed : before.length + 1 = (before ++ [length]).length := by simp
      rw [firstLongest, List.append_cons, passed]
      split
      next longer => exact ih _ _ _ (leads_longer before chosen longest length leads longer)
      next kept => exact ih _ _ _ (leads_kept before chosen longest length leads kept)

theorem mode_leads (lengths : List Nat) :
    ∃ longest, Leads lengths (ofLengths lengths).mode longest :=
  first_longest_leads [] lengths none 0 ⟨by simp, by simp⟩

end RunTable

namespace Tally

variable (entries : List Entry) (ascending : Ascending Entry.value entries)

include ascending

theorem below_cases (x y : Entry) (xIn : x ∈ entries) (yIn : y ∈ entries) :
    x = y ∨ x.value.Below y.value ∨ y.value.Below x.value := by
  by_cases same : x = y
  · exact .inl same
  · have symmetric : Std.Symm Distinct := ⟨distinct_symm⟩
    have distinct := (ascending_distinct entries ascending).forall xIn yIn same
    exact .inr (below_or_above x y distinct)

theorem below_earlier (entry other : Entry) (run : Nat) (found : entries[run]? = some entry)
    (inside : other ∈ entries) (below : other.value.Below entry.value) : other ∈ entries.take run := by
  obtain ⟨bound, here⟩ := List.getElem?_eq_some_iff.mp found
  have split : entries.take run ++ entry :: entries.drop (run + 1) = entries := by
    rw [← here, List.getElem_cons_drop, List.take_append_drop]
  rw [← split] at inside ascending
  rcases List.mem_append.mp inside with earlier | later
  · exact earlier
  · have above := (List.pairwise_cons.mp (List.pairwise_append.mp ascending).2.1).1
    rcases List.mem_cons.mp later with same | after
    · exact absurd (same ▸ Datum.alike_refl _) (Datum.not_alike_of_below _ _ below)
    · exact absurd (Datum.alike_refl _)
        (Datum.not_alike_of_below _ _ (Datum.below_trans _ _ _ below (above other after)))

end Tally

structure MostFrequent (entries : List Entry) (entry : Entry) : Prop where
  inside : entry ∈ entries
  greatest : ∀ other ∈ entries, other.count ≤ entry.count
  lowest : ∀ other ∈ entries, other.value.Below entry.value → other.count < entry.count

namespace MostFrequent

variable (entries : List Entry) (ascending : Ascending Entry.value entries)

include ascending

theorem of_leads (run longest : Nat)
    (leads : RunTable.Leads (entries.map (·.count)) (some run) longest) :
    ∃ entry, entries[run]? = some entry ∧ MostFrequent entries entry := by
  obtain ⟨counted, less⟩ := leads.first run rfl
  rw [List.getElem?_map, Option.map_eq_some_iff] at counted
  obtain ⟨entry, found, rfl⟩ := counted
  refine ⟨entry, found, List.mem_of_getElem? found, fun other inside => ?_, fun other inside below => ?_⟩
  · exact leads.bound _ (List.mem_map_of_mem inside)
  · have earlier := Tally.below_earlier entries ascending entry other run found inside below
    rw [← List.map_take] at less
    exact less _ (List.mem_map_of_mem earlier)

theorem unique (entry other : Entry) (first : MostFrequent entries entry)
    (second : MostFrequent entries other) : other = entry := by
  have greater := first.greatest other second.inside
  have greaterOther := second.greatest entry first.inside
  rcases Tally.below_cases entries ascending other entry second.inside first.inside with same | below | above
  · exact same
  · have less := first.lowest other second.inside below
    omega
  · have less := second.lowest entry first.inside above
    omega

end MostFrequent

namespace Tally

theorem count_of_inside (entries : List Entry) (entry : Entry) (value : Datum)
    (ascending : Ascending Entry.value entries) (inside : entry ∈ entries)
    (alike : entry.value.Alike value) : countOf entries value = entry.count := by
  obtain ⟨below, above, rfl⟩ := List.append_of_mem inside
  obtain ⟨_, right, across⟩ := List.pairwise_append.mp ascending
  have none_below (x : Entry) (xIn : x ∈ below) : ¬x.value.Alike value := fun other =>
    Datum.not_alike_of_below _ _ (across x xIn entry List.mem_cons_self)
      (Datum.alike_trans _ _ _ other (Datum.alike_symm _ _ alike))
  have none_above (x : Entry) (xIn : x ∈ above) : ¬x.value.Alike value := fun other =>
    Datum.not_alike_of_above _ _ ((List.pairwise_cons.mp right).1 x xIn)
      (Datum.alike_trans _ _ _ other (Datum.alike_symm _ _ alike))
  rw [count_of_append, count_of_cons, count_of_none below value none_below,
    count_of_none above value none_above, if_pos alike, Nat.zero_add, Nat.add_zero]

theorem counted_inside (entries : List Entry) (value : Datum) (ascending : Ascending Entry.value entries)
    (counted : 1 ≤ countOf entries value) :
    ∃ entry ∈ entries, entry.value.Alike value ∧ entry.count = countOf entries value := by
  by_contra missing
  have none (x : Entry) (xIn : x ∈ entries) : ¬x.value.Alike value := fun alike =>
    missing ⟨x, xIn, alike, (count_of_inside entries x value ascending xIn alike).symm⟩
  rw [count_of_none entries value none] at counted
  omega

end Tally

namespace SortedBag

theorem frozen_mode (bag : SortedBag) (collecting : bag.isFrozen = false) : bag.freeze.2.mode =
    .ok (((RunTable.ofLengths bag.counts).mode.bind (bag.entries[·]?)).elim .null (·.value)) := by
  rw [freeze_collecting bag collecting]
  rfl

theorem counts_empty_iff (bag : SortedBag) (sound : bag.Sound) : bag.counts = [] ↔ bag.size = 0 := by
  have occurring := counts_occurring bag sound
  rw [sound.size_eq]
  cases split : bag.counts with
  | nil => simp
  | cons count rest =>
      have one := occurring count (split ▸ List.mem_cons_self)
      rw [List.sum_cons]
      exact ⟨fun empty => (by cases empty), fun zero => (by omega)⟩

theorem mode_unfilled (bag : SortedBag) (sound : bag.Sound) (collecting : bag.isFrozen = false)
    (unfilled : bag.size = 0) : bag.freeze.2.mode = .ok .null := by
  rw [frozen_mode bag collecting, (counts_empty_iff bag sound).mpr unfilled]
  rfl

theorem mode_filled (bag : SortedBag) (sound : bag.Sound) (collecting : bag.isFrozen = false)
    (filled : 0 < bag.size) :
    ∃ entry, MostFrequent bag.entries.toList entry ∧ bag.freeze.2.mode = .ok entry.value := by
  obtain ⟨longest, leads⟩ := RunTable.mode_leads bag.counts
  cases chosen : (RunTable.ofLengths bag.counts).mode with
  | none =>
      have empty := (RunTable.mode_none_iff bag.counts (counts_occurring bag sound)).mp chosen
      have unfilled := (counts_empty_iff bag sound).mp empty
      omega
  | some run =>
      rw [chosen] at leads
      obtain ⟨entry, found, frequent⟩ := MostFrequent.of_leads _ sound.ascending run longest leads
      refine ⟨entry, frequent, ?_⟩
      rw [Array.getElem?_toList] at found
      rw [frozen_mode bag collecting, chosen, Option.bind_some, found, Option.elim_some]

section Counts

variable (bag other : SortedBag) (sound : bag.Sound) (otherSound : other.Sound)
  (same : ∀ value, bag.countOf value = other.countOf value)

include sound otherSound same

theorem counterpart (entry : Entry) (inside : entry ∈ bag.entries.toList) :
    ∃ twin ∈ other.entries.toList, twin.value.Alike entry.value ∧ twin.count = entry.count := by
  have counted : Tally.countOf other.entries.toList entry.value = entry.count := by
    rw [← Tally.count_of_eq other _ otherSound, ← same, Tally.count_of_eq bag _ sound]
    exact Tally.count_of_inside _ entry _ sound.ascending inside (Datum.alike_refl _)
  have one := sound.occurring entry inside
  rw [← counted]
  exact Tally.counted_inside _ _ otherSound.ascending (counted ▸ one)

theorem sizes_agree (unfilled : bag.size = 0) : other.size = 0 := by
  rw [← counts_empty_iff other otherSound]
  by_contra filled
  obtain ⟨count, inside⟩ := List.exists_mem_of_ne_nil _ filled
  obtain ⟨entry, entryIn, rfl⟩ := List.mem_map.mp inside
  obtain ⟨twin, twinIn, -, -⟩ :=
    counterpart other bag otherSound sound (fun value => (same value).symm) entry entryIn
  have empty := (counts_empty_iff bag sound).mpr unfilled
  rw [counts, List.map_eq_nil_iff] at empty
  rw [empty] at twinIn
  cases twinIn

-- The counterpart of either entry occurs as often as the other entry, so neither can be the lower one.
theorem most_frequent_alike (x y : Entry) (first : MostFrequent bag.entries.toList x)
    (second : MostFrequent other.entries.toList y) : x.value.Alike y.value := by
  obtain ⟨x', xIn, xAlike, xCount⟩ := counterpart bag other sound otherSound same x first.inside
  obtain ⟨y', yIn, yAlike, yCount⟩ :=
    counterpart other bag otherSound sound (fun value => (same value).symm) y second.inside
  have most := first.greatest y' yIn
  have mostOther := second.greatest x' xIn
  rcases Tally.below_cases _ otherSound.ascending x' y xIn second.inside with rfl | below | above
  · exact Datum.alike_symm _ _ xAlike
  · have less := second.lowest x' xIn below
    omega
  · have lower : y'.value.Below x.value := by
      rw [Datum.below_congr_left _ _ _ yAlike]
      exact (Datum.below_congr_right _ _ _ xAlike).mp above
    have less := first.lowest y' yIn lower
    omega

theorem modes_agree (collecting : bag.isFrozen = false) (otherCollecting : other.isFrozen = false) :
    ∃ mode otherMode, bag.freeze.2.mode = .ok mode ∧ other.freeze.2.mode = .ok otherMode ∧
      mode.Alike otherMode ∧ (Identical (bag.values ++ other.values) → mode = otherMode) := by
  rcases Nat.eq_zero_or_pos bag.size with unfilled | filled
  · have otherUnfilled := sizes_agree bag other sound otherSound same unfilled
    exact ⟨.null, .null, mode_unfilled bag sound collecting unfilled,
      mode_unfilled other otherSound otherCollecting otherUnfilled, Datum.alike_refl _, fun _ => rfl⟩
  · have otherFilled : 0 < other.size := by
      by_contra otherUnfilled
      have unfilled := sizes_agree other bag otherSound sound (fun value => (same value).symm) (by omega)
      omega
    obtain ⟨x, first, mode⟩ := mode_filled bag sound collecting filled
    obtain ⟨y, second, otherMode⟩ := mode_filled other otherSound otherCollecting otherFilled
    have alike := most_frequent_alike bag other sound otherSound same x y first second
    have xIn : x.value ∈ bag.values := List.mem_map_of_mem first.inside
    have yIn : y.value ∈ other.values := List.mem_map_of_mem second.inside
    exact ⟨x.value, y.value, mode, otherMode, alike, fun identical =>
      identical _ (List.mem_append_left _ xIn) _ (List.mem_append_right _ yIn) alike⟩

end Counts

/-- The mode of a frozen bag is NULL or the value of the one entry that no entry exceeds in number and no lower entry
equals, whatever the order in which values were put in and taken out. -/
theorem mode_most_frequent (bag : SortedBag) (reachable : bag.Reachable)
    (collecting : bag.isFrozen = false) :
    bag.freeze.1 = .ok () ∧
      (bag.size = 0 → bag.freeze.2.mode = .ok .null) ∧
      (0 < bag.size → ∃ entry, MostFrequent bag.entries.toList entry ∧
        (∀ other, MostFrequent bag.entries.toList other → other = entry) ∧
        bag.freeze.2.mode = .ok entry.value) ∧
      (∀ other : SortedBag, other.Reachable → other.isFrozen = false →
        (∀ value, bag.countOf value = other.countOf value) →
        ∃ mode otherMode, bag.freeze.2.mode = .ok mode ∧ other.freeze.2.mode = .ok otherMode ∧
          mode.Alike otherMode ∧ (Identical (bag.values ++ other.values) → mode = otherMode)) ∧
      ∀ changes others, (bag.made changes).Perm (bag.made others) →
        ∃ mode otherMode, (bag.changed changes).freeze.2.mode = .ok mode ∧
          (bag.changed others).freeze.2.mode = .ok otherMode ∧ mode.Alike otherMode ∧
          (Identical (bag.values ++ Change.brought (bag.made changes)) → mode = otherMode) := by
  have sound := (reachable_valid bag reachable).toSound
  refine ⟨by rw [freeze_collecting bag collecting], mode_unfilled bag sound collecting, fun filled => ?_,
    fun other otherReachable otherCollecting same => ?_, fun changes others perm => ?_⟩
  · obtain ⟨entry, frequent, mode⟩ := mode_filled bag sound collecting filled
    refine ⟨entry, frequent, fun other also => ?_, mode⟩
    exact MostFrequent.unique _ sound.ascending entry other frequent also
  · have otherSound := (reachable_valid other otherReachable).toSound
    exact modes_agree bag other sound otherSound same collecting otherCollecting
  · have left := changed_balances bag sound collecting changes
    have right := changed_balances bag sound collecting others
    have same := changed_counts_perm bag sound collecting changes others perm
    obtain ⟨mode, otherMode, found, otherFound, alike, equal⟩ :=
      modes_agree _ _ left.toSound right.toSound same left.collecting right.collecting
    refine ⟨mode, otherMode, found, otherFound, alike, fun identical => equal fun x xIn y yIn => ?_⟩
    have brought (value : Datum)
        (inside : value ∈ (bag.changed changes).values ++ (bag.changed others).values) :
        value ∈ bag.values ++ Change.brought (bag.made changes) := by
      rw [List.mem_append, Change.mem_brought]
      rcases List.mem_append.mp inside with here | there
      · exact left.origin value here
      · exact (right.origin value there).imp_right perm.mem_iff.mpr
    exact identical x (brought x xIn) y (brought y yIn)

theorem mode_most_frequent_tied :
    let bag := empty.after [.addAll [.integer 7, .integer 3, .text "a", .integer 7]]
    let changes := [.put (.integer 3), .take (.integer 8), .put (.integer 9), .take (.integer 9)]
    let others := [.put (.integer 9), .take (.integer 9), .put (.integer 3)]
    bag.Reachable ∧ bag.isFrozen = false ∧ 0 < bag.size ∧
      (∃ entry, MostFrequent bag.entries.toList entry ∧ bag.freeze.2.mode = .ok entry.value) ∧
      (bag.made changes).Perm (bag.made others) ∧
      Identical (bag.values ++ Change.brought (bag.made changes)) ∧
      (bag.changed changes).freeze.2.mode = .ok (.integer 3) ∧
      (bag.changed others).freeze.2.mode = .ok (.integer 3) := by
  intro bag changes others
  have collecting : bag.isFrozen = false := by decide +kernel
  have filled : 0 < bag.size := by decide +kernel
  have perm : (bag.made changes).Perm (bag.made others) := by decide +kernel
  have identical : Identical (bag.values ++ Change.brought (bag.made changes)) := by
    rw [Identical]
    decide +kernel
  have lowest : (bag.changed changes).freeze.2.mode = .ok (.integer 3) := by decide +kernel
  obtain ⟨-, -, answered, -, moved⟩ := mode_most_frequent bag ⟨_, rfl⟩ collecting
  obtain ⟨entry, frequent, -, mode⟩ := answered filled
  obtain ⟨mine, theirs, found, otherFound, -, same⟩ := moved changes others perm
  have settled : theirs = .integer 3 :=
    (same identical).symm.trans (Except.ok.inj (found.symm.trans lowest))
  exact ⟨⟨_, rfl⟩, collecting, filled, ⟨entry, frequent, mode⟩, perm, identical, lowest,
    settled ▸ otherFound⟩

end SortedBag

end Aggregation
