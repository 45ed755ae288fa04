import Mathlib
import Aggregation.Proofs.Accumulator.Arrival
import Aggregation.Proofs.Accumulator.Merging
import Aggregation.Proofs.Agreement

set_option autoImplicit false

namespace Aggregation

namespace Word

def total (words : List Int64) : Int :=
  (words.map Int64.toInt).sum

def Fits (n : Int) : Prop := least ≤ n ∧ n ≤ greatest

instance (n : Int) : Decidable (Fits n) := inferInstanceAs (Decidable (_ ∧ _))

theorem total_cons (word : Int64) (words : List Int64) : total (word :: words) = word.toInt + total words := by
  rw [total, List.map_cons, List.sum_cons, total]

theorem total_append (words more : List Int64) : total (words ++ more) = total words + total more := by
  rw [total, List.map_append, List.sum_append, total, total]

theorem total_singleton (word : Int64) : total [word] = word.toInt := by
  rw [total, List.map_singleton, List.sum_singleton]

theorem total_perm (words others : List Int64) (perm : words.Perm others) : total words = total others :=
  (perm.map _).sum_eq

theorem word_fits (word : Int64) : Fits word.toInt := by
  have low := word.le_toInt
  have high := word.toInt_lt
  rw [Fits, least, greatest]
  omega

theorem to_int_of_fits (n : Int) (fits : Fits n) : (Int64.ofInt n).toInt = n := by
  obtain ⟨word, found, same⟩ := of_int_inside n fits.1 fits.2
  rw [← same, Int64.ofInt_toInt]

end Word

theorem filter_sum_cons (p : Int → Bool) (n : Int) (rest : List Int) :
    ((n :: rest).filter p).sum = (if p n then n else 0) + (rest.filter p).sum := by
  rw [List.filter_cons]
  split
  · rw [List.sum_cons]
  · rw [Int.zero_add]

theorem sublist_sum_between (part whole : List Int) (sub : part.Sublist whole) :
    (whole.filter (· < 0)).sum ≤ part.sum ∧ part.sum ≤ (whole.filter (0 < ·)).sum := by
  induction sub with
  | slnil => exact ⟨le_refl _, le_refl _⟩
  | cons n sub ih =>
      simp only [filter_sum_cons, decide_eq_true_eq]
      split <;> split <;> omega
  | cons_cons n sub ih =>
      simp only [filter_sum_cons, decide_eq_true_eq, List.sum_cons]
      split <;> split <;> omega

theorem of_exact_fits (n : Int) : Datum.ofExact n =
    if Word.Fits n then .ok (.integer (Int64.ofInt n)) else .error .overflow := by
  by_cases fits : Word.Fits n
  · obtain ⟨word, found, same⟩ := Word.of_int_inside n fits.1 fits.2
    rw [Datum.ofExact, found, if_pos fits, ← same, Int64.ofInt_toInt]
  · rw [Datum.ofExact, Word.of_int_outside n (by rw [Word.Fits] at fits; omega), if_neg fits]

namespace Accumulator

open Word

def accepted [PowerFunction] (acc : Accumulator) (rows : List Datum) : List Datum :=
  withoutNull (((rows.zip (acc.taken rows false)).filter (·.2)).map (·.1))

def admits (words : List Int64) (row : Datum) : Except DatumError Int64 :=
  row.toInteger.bind fun word =>
    if Fits (total words + word.toInt) then .ok word else .error .overflow

theorem admits_iff (words : List Int64) (row : Datum) (word : Int64) :
    admits words row = .ok word ↔ row.toInteger = .ok word ∧ Fits (total words + word.toInt) := by
  rw [admits]
  cases row.toInteger with
  | error failure => simp [Except.bind]
  | ok other =>
      rw [Except.bind, Except.ok.injEq]
      by_cases fits : Fits (total words + other.toInt)
      · rw [if_pos fits, Except.ok.injEq]
        exact ⟨fun same => ⟨same, same ▸ fits⟩, And.left⟩
      · rw [if_neg fits]
        refine ⟨fun failed => (by cases failed), ?_⟩
        rintro ⟨rfl, fitting⟩
        exact absurd fitting fits

inductive Exact : List Int64 → Option Int64 → Prop where
  | unstarted : Exact [] none
  | sum (words : List Int64) (sum : Int64) (filled : words ≠ []) (same : sum.toInt = total words) :
      Exact words (some sum)

theorem exact_unique (words : List Int64) (kept other : Option Int64) (first : Exact words kept)
    (second : Exact words other) : kept = other := by
  cases first with
  | unstarted =>
      cases second with
      | unstarted => rfl
      | sum _ _ filled _ => exact absurd rfl filled
  | sum _ sum filled same =>
      cases second with
      | unstarted => exact absurd rfl filled
      | sum _ other _ also => rw [Int64.toInt_inj.mp (same.trans also.symm)]

theorem exact_perm (words others : List Int64) (kept : Option Int64) (perm : words.Perm others)
    (exact : Exact words kept) : Exact others kept := by
  cases exact with
  | unstarted => exact perm.nil_eq ▸ .unstarted
  | sum _ sum filled same =>
      exact .sum others sum (fun none => filled (none ▸ perm).eq_nil) (same.trans (total_perm _ _ perm))

structure Sums (acc : Accumulator) (words : List Int64) (kept : Option Int64) : Prop where
  kind : acc.aggregate = .sum
  type : acc.dataType = .integer
  count : acc.count = words.length
  running : acc.running = kept.map .integer
  exact : Exact words kept

theorem empty_sums : Sums (empty .sum .integer) [] none :=
  ⟨rfl, rfl, rfl, rfl, .unstarted⟩

section Rows

variable (acc : Accumulator) (words : List Int64) (kept : Option Int64) (row : Datum)
  (present : row ≠ .null)

include present

theorem sum_with_exact (exact : Exact words kept) : sumWith .integer row (kept.map .integer) =
    (admits words row).map fun word => .integer (Int64.ofInt (total words + word.toInt)) := by
  cases exact with
  | unstarted =>
      change row.convert .integer = _
      rw [Datum.convert_integer row present, admits]
      cases row.toInteger with
      | error failure => rfl
      | ok word =>
          have alone : total [] + word.toInt = word.toInt := Int.zero_add _
          simp only [Except.bind, alone, if_pos (word_fits word), Except.map, Int64.ofInt_toInt]
  | sum _ sum filled same =>
      change (row.convert .integer).bind (Datum.integer sum).add = _
      rw [Datum.convert_integer row present, admits]
      cases row.toInteger with
      | error failure => rfl
      | ok word =>
          change Datum.ofExact (sum.toInt + word.toInt) = Except.map _ (if _ then _ else _)
          rw [of_exact_fits, same]
          split <;> rfl

inductive Added : Except DatumError Unit × Accumulator → Prop where
  | refused (failure : DatumError) (answer : admits words row = .error failure) :
      Added (.error failure, acc)
  | taken (word sum : Int64) (next : Accumulator) (answer : admits words row = .ok word)
      (sums : Sums next (words ++ [word]) (some sum)) : Added (.ok (), next)

theorem fold_sums (sums : Sums acc words kept) :
    acc.fold row = (admits words row).map fun word =>
      { acc with
        count := acc.count + 1
        running := some (.integer (Int64.ofInt (total words + word.toInt))) } := by
  have summed := sum_with_exact words kept row present sums.exact
  rw [← sums.running, ← sums.type] at summed
  rw [fold, sums.kind]
  simp only [summed]
  cases admits words row <;> rfl

theorem add_sums (sums : Sums acc words kept) : Added acc words row (acc.add row false) := by
  rw [add_plain acc row present, fold_sums acc words kept row present sums]
  cases answer : admits words row with
  | error failure => exact .refused failure answer
  | ok word =>
      have fits := ((admits_iff words row word).mp answer).2
      refine .taken word (Int64.ofInt (total words + word.toInt)) _ answer
        ⟨sums.kind, sums.type, ?_, rfl, .sum _ _ (by simp) ?_⟩
      · rw [List.length_append, List.length_singleton, sums.count]
      · rw [total_append, total_singleton, to_int_of_fits _ fits]

end Rows

theorem add_null (acc : Accumulator) (distinct : Bool) : acc.add .null distinct = (.ok (), acc) := rfl

theorem fed_cons [PowerFunction] (acc : Accumulator) (row : Datum) (rows : List Datum) (distinct : Bool) :
    acc.fed (row :: rows) distinct = (acc.add row distinct).2.fed rows distinct := rfl

theorem without_null_cons (row : Datum) (rows : List Datum) (present : row ≠ .null) :
    withoutNull (row :: rows) = row :: withoutNull rows :=
  List.filter_cons_of_pos (by simpa using mt (is_null_iff row).mp present)

theorem accepted_cons [PowerFunction] (acc : Accumulator) (row : Datum) (rows : List Datum) :
    acc.accepted (row :: rows) = withoutNull (if (acc.add row false).1.isOk then [row] else []) ++
      (acc.add row false).2.accepted rows := by
  rw [accepted, taken_cons, List.zip_cons_cons, List.filter_cons, accepted]
  split
  · rw [List.map_cons, ← List.singleton_append, withoutNull, withoutNull, withoutNull, List.filter_append]
  · rfl

theorem fed_sums [PowerFunction] (acc : Accumulator) (words : List Int64) (kept : Option Int64) (rows : List Datum)
    (sums : Sums acc words kept) : ∃ more sum, Reads Datum.toInteger (acc.accepted rows) more ∧
      Sums (acc.fed rows false) (words ++ more) sum := by
  induction rows generalizing acc words kept with
  | nil => exact ⟨[], kept, rfl, by rwa [List.append_nil]⟩
  | cons row rows ih =>
      rw [accepted_cons, fed_cons]
      by_cases null : row = .null
      · rw [null, add_null]
        exact ih acc words kept sums
      · have added := add_sums acc words kept row null sums
        generalize acc.add row false = result at added
        cases added with
        | refused failure answer => exact ih acc words kept sums
        | taken word sum next answer further =>
            obtain ⟨more, final, reads, whole⟩ := ih next _ _ further
            refine ⟨word :: more, final, ?_, by rwa [List.append_assoc] at whole⟩
            have read := ((admits_iff words row word).mp answer).1
            have first : withoutNull [row] = [row] := without_null_cons row [] null
            change Reads _ (withoutNull [row] ++ next.accepted rows) ([word] ++ more)
            rw [first]
            exact reads_append _ _ _ _ _ (by rw [Reads, List.map_singleton, read]; rfl) reads

-- Where the sum of the integers up to each row fits, every row is taken in. The sums that are asked for
-- include those taken in before, so that the rows after the first ask for no others.
theorem taken_within [PowerFunction] (acc : Accumulator) (words more : List Int64) (kept : Option Int64)
    (rows : List Datum) (sums : Sums acc words kept) (reads : Reads Datum.toInteger (withoutNull rows) more)
    (fits : ∀ part, part <+: more → Fits (total (words ++ part))) :
    acc.taken rows false = rows.map (fun _ => true) ∧
      ∃ sum, Sums (acc.fed rows false) (words ++ more) sum := by
  induction rows generalizing acc words kept more with
  | nil =>
      have spent : more = [] := List.map_eq_nil_iff.mp reads.symm
      rw [spent, List.append_nil]
      exact ⟨rfl, kept, sums⟩
  | cons row rows ih =>
      rw [taken_cons, fed_cons, List.map_cons]
      by_cases null : row = .null
      · rw [null, add_null]
        rw [null] at reads
        obtain ⟨flags, sum⟩ := ih acc words more kept sums reads fits
        exact ⟨by rw [flags]; rfl, sum⟩
      · rw [without_null_cons row rows null] at reads
        cases more with
        | nil => cases reads
        | cons word more =>
            obtain ⟨read, rest⟩ := List.cons_eq_cons.mp reads
            have first := fits [word] ⟨more, rfl⟩
            rw [total_append, total_singleton] at first
            have admitted := (admits_iff words row word).mpr ⟨read, first⟩
            have added := add_sums acc words kept row null sums
            generalize acc.add row false = result at added
            cases added with
            | refused failure answer => cases admitted.symm.trans answer
            | taken other sum next answer further =>
                obtain rfl := Except.ok.inj (admitted.symm.trans answer)
                obtain ⟨flags, whole⟩ := ih next _ more _ further rest fun part within => by
                  rw [List.append_assoc]
                  exact fits (word :: part) (List.cons_prefix_cons.mpr ⟨rfl, within⟩)
                rw [List.append_assoc] at whole
                exact ⟨by rw [flags]; rfl, whole⟩

theorem sums_answer [PowerFunction] (acc : Accumulator) (words : List Int64) (kept : Option Int64)
    (sums : Sums acc words kept) : (acc.finish .integer false).1 = .ok (kept.elim .null .integer) := by
  change acc.answer .integer = _
  rw [answer, outcome, sums.kind, sums.running]
  cases kept <;> rfl

theorem answer_at [PowerFunction] (acc : Accumulator) (before later : List Datum) (row : Datum) :
    (acc.run ((before ++ row :: later).map (.add · false)))[before.length]?.map (·.1) =
      some (((acc.fed before false).add row false).1.map fun _ => .added) := by
  induction before generalizing acc with
  | nil => rfl
  | cons first before ih => exact ih (acc.perform (.add first false)).2

theorem perm_fits (words others : List Int64) (perm : others.Perm words)
    (high : ((words.map Int64.toInt).filter (0 < ·)).sum ≤ greatest)
    (low : least ≤ ((words.map Int64.toInt).filter (· < 0)).sum) (part : List Int64)
    (within : part <+: others) : Fits (total part) := by
  have numbers := perm.map Int64.toInt
  obtain ⟨below, above⟩ := sublist_sum_between _ _ (within.sublist.map Int64.toInt)
  rw [(numbers.filter _).sum_eq] at below
  rw [(numbers.filter _).sum_eq] at above
  exact ⟨low.trans below, above.trans high⟩

theorem reads_perm (rows others : List Datum) (words : List Int64)
    (reads : Reads Datum.toInteger rows words) (perm : others.Perm rows) :
    ∃ moved, Reads Datum.toInteger others moved ∧ moved.Perm words := by
  obtain ⟨moved, read⟩ := reads_exists Datum.toInteger others fun row inside =>
    reads_readable Datum.toInteger rows words reads row (perm.mem_iff.mp inside)
  have images := perm.map Datum.toInteger
  rw [reads, read] at images
  exact ⟨moved, read, (List.map_perm_map_iff fun _ _ same => Except.ok.inj same).mp images⟩

theorem any_order_taken [PowerFunction] (rows others : List Datum) (words : List Int64)
    (reads : Reads Datum.toInteger (withoutNull rows) words)
    (high : ((words.map Int64.toInt).filter (0 < ·)).sum ≤ greatest)
    (low : least ≤ ((words.map Int64.toInt).filter (· < 0)).sum) (perm : others.Perm rows) :
    ∃ sum, Exact words sum ∧ (empty .sum .integer).taken others false = others.map (fun _ => true) ∧
      (((empty .sum .integer).fed others false).finish .integer false).1 = .ok (sum.elim .null .integer) := by
  obtain ⟨moved, read, order⟩ := reads_perm _ _ words reads (perm.filter _)
  obtain ⟨flags, sum, sums⟩ := taken_within _ [] moved none others empty_sums read
    (perm_fits words moved order high low)
  exact ⟨sum, exact_perm moved words sum order sums.exact, flags, sums_answer _ moved sum sums⟩

/-- A sum of integers never wraps: a row is taken in when the exact sum with those taken in before it fits into a word.
Where the positive rows and the negative ones each have such a sum, all are taken in, whatever their order. -/
theorem sum_exact [PowerFunction] (rows : List Datum) :
    let start := empty .sum .integer
    (∀ before row later, rows = before ++ row :: later → row ≠ .null →
      ∃ words, Reads Datum.toInteger (start.accepted before) words ∧
        (start.run (rows.map (.add · false)))[before.length]?.map (·.1) =
          some ((admits words row).map fun _ => .added)) ∧
      (start.fed rows false).count = (start.accepted rows).length ∧
      (∃ words sum, Reads Datum.toInteger (start.accepted rows) words ∧ Exact words sum ∧
        ((start.fed rows false).finish .integer false).1 = .ok (sum.elim .null .integer)) ∧
      ∀ words, Reads Datum.toInteger (withoutNull rows) words →
        ((words.map Int64.toInt).filter (0 < ·)).sum ≤ greatest →
        least ≤ ((words.map Int64.toInt).filter (· < 0)).sum →
        ∃ sum, Exact words sum ∧ ∀ others, others.Perm rows →
          start.taken others false = others.map (fun _ => true) ∧
            ((start.fed others false).finish .integer false).1 = .ok (sum.elim .null .integer) := by
  intro start
  have fed (given : List Datum) := fed_sums start [] none given empty_sums
  refine ⟨?_, ?_, ?_, fun words reads high low => ?_⟩
  · rintro before row later rfl present
    obtain ⟨words, sum, reads, sums⟩ := fed before
    refine ⟨words, reads, ?_⟩
    have added := add_sums _ words sum row present sums
    rw [answer_at]
    generalize (start.fed before false).add row false = result at added
    cases added with
    | refused failure answer => rw [answer]; rfl
    | taken word sum next answer further => rw [answer]; rfl
  · obtain ⟨words, sum, reads, sums⟩ := fed rows
    exact sums.count.trans (reads_length _ _ _ reads)
  · obtain ⟨words, sum, reads, sums⟩ := fed rows
    exact ⟨words, sum, reads, sums.exact, sums_answer _ words sum sums⟩
  · obtain ⟨sum, exact, _⟩ := any_order_taken rows rows words reads high low (List.Perm.refl rows)
    refine ⟨sum, exact, fun others perm => ?_⟩
    obtain ⟨other, also, flags, answer⟩ := any_order_taken rows others words reads high low perm
    exact ⟨flags, exact_unique words sum other exact also ▸ answer⟩

theorem sum_exact_refused :
    let start := empty .sum .integer
    let rows := [.integer 9223372036854775807, .text "1", .null, .text "b", .integer (-5)]
    let small := [.text " 7 ", .null, .integer (-9), .boolean true]
    (∃ words, Reads Datum.toInteger (start.accepted [.integer 9223372036854775807]) words ∧
        (start.run (rows.map (.add · false)))[1]?.map (·.1) =
          some ((admits words (.text "1")).map fun _ => .added)) ∧
      (start.run (rows.map (.add · false)))[1]?.map (·.1) = some (.error .overflow) ∧
      start.accepted rows = [.integer 9223372036854775807, .integer (-5)] ∧
      ((start.fed rows false).finish .integer false).1 = .ok (.integer 9223372036854775802) ∧
      Reads Datum.toInteger (withoutNull small) [7, -9, 1] ∧
      ∃ sum, Exact [7, -9, 1] sum ∧ start.taken small.reverse false = [true, true, true, true] ∧
        ((start.fed small.reverse false).finish .integer false).1 = .ok (sum.elim .null .integer) := by
  intro start rows small
  obtain ⟨answers, _, _, _⟩ := sum_exact rows
  obtain ⟨_, _, _, orders⟩ := sum_exact small
  have overflow : (start.run (rows.map (.add · false)))[1]?.map (·.1) = some (.error .overflow) := by
    decide +kernel
  have reads : Reads Datum.toInteger (withoutNull small) [7, -9, 1] := by
    rw [Reads]
    decide +kernel
  obtain ⟨sum, exact, anyOrder⟩ := orders [7, -9, 1] reads (by decide +kernel) (by decide +kernel)
  obtain ⟨flags, answer⟩ := anyOrder small.reverse (List.reverse_perm small)
  exact ⟨answers [.integer 9223372036854775807] (.text "1") [.null, .text "b", .integer (-5)] rfl (by simp),
    overflow, by decide +kernel, by decide +kernel, reads, sum, exact, flags, answer⟩

end Accumulator

end Aggregation
