import Mathlib
import Aggregation.Proofs.Accumulator.Combined
import Aggregation.Proofs.Datum.Whole

set_option autoImplicit false

namespace Aggregation

namespace Binary64

def wholeMagnitude (n : Nat) : Nat :=
  units (indexOfRatio n 1) / unitsInOne

def wholeNearest (n : Int) : Int :=
  signed (n < 0) (wholeMagnitude n.natAbs)

theorem word_nearest_of_int (n : Int) : Datum.wordNearest (ofInt n) = Datum.fitted (wholeNearest n) := by
  have whole := (Nat.div_mul_cancel (rounded_whole_nat n.natAbs)).symm
  rw [ofInt, Datum.word_nearest_ratio _ _ _ whole, wholeNearest, wholeMagnitude]

section Magnitude

variable (n : Nat)

theorem whole_magnitude_top (large : 2 ^ 63 - 512 ≤ n) (small : n ≤ 2 ^ 63) : wholeMagnitude n = 2 ^ 63 := by
  rw [wholeMagnitude, rounded_to_edge n large (by omega), Nat.mul_div_cancel _ units_in_one_pos]

theorem whole_magnitude_below (small : n < 2 ^ 63 - 512) : wholeMagnitude n ≤ 2 ^ 63 - 1024 := by
  have before := Nat.div_le_div_right (c := unitsInOne) (rounded_before_edge n small)
  rwa [Nat.mul_div_cancel _ units_in_one_pos] at before

theorem whole_magnitude_small (small : n ≤ 2 ^ 53) : wholeMagnitude n = n := by
  rw [wholeMagnitude, units_of_exact n small, Nat.mul_div_cancel _ units_in_one_pos]

end Magnitude

theorem whole_nearest_top (n : Int) (large : 2 ^ 63 - 512 ≤ n) (small : n ≤ 2 ^ 63) :
    wholeNearest n = 2 ^ 63 := by
  have positive : ¬n < 0 := by omega
  rw [wholeNearest, whole_magnitude_top n.natAbs (by omega) (by omega), decide_eq_false positive,
    signed_false]
  rfl

theorem whole_nearest_inside (n : Int) (low : -2 ^ 63 ≤ n) (high : n < 2 ^ 63 - 512) :
    -2 ^ 63 ≤ wholeNearest n ∧ wholeNearest n ≤ 2 ^ 63 - 1024 := by
  have top := whole_magnitude_top n.natAbs
  have below := whole_magnitude_below n.natAbs
  rw [wholeNearest]
  generalize wholeMagnitude n.natAbs = m at top below ⊢
  by_cases negative : n < 0
  · rw [decide_eq_true negative, signed_true]
    omega
  · rw [decide_eq_false negative, signed_false]
    omega

theorem whole_nearest_small (n : Int) (low : -2 ^ 53 ≤ n) (high : n ≤ 2 ^ 53) : wholeNearest n = n := by
  rw [wholeNearest, whole_magnitude_small n.natAbs (by omega), signed_nat_abs]

end Binary64

namespace Word

def Short (word : Int64) : Prop :=
  -2 ^ 53 ≤ word.toInt ∧ word.toInt < 2 ^ 53

theorem short_iff (word : Int64) :
    Short word ↔ word.toBitVec.sshiftRight 53 = 0 ∨ word.toBitVec.sshiftRight 53 = -1 := by
  have unset : (0 : BitVec 64).toInt = 0 := rfl
  have all : (-1 : BitVec 64).toInt = -1 := rfl
  rw [← BitVec.toInt_inj, ← BitVec.toInt_inj, BitVec.toInt_sshiftRight, Int.shiftRight_eq_div_pow,
    Int64.toInt_toBitVec, Short, unset, all]
  push_cast
  omega

end Word

namespace Accumulator

open Binary64

inductive Bitwise : Aggregate → (Int64 → Int64 → Int64) → Prop where
  | all : Bitwise .bitAnd (· &&& ·)
  | any : Bitwise .bitOr (· ||| ·)

theorem bitwise_short (aggregate : Aggregate) (combine : Int64 → Int64 → Int64)
    (bitwise : Bitwise aggregate combine) (a b : Int64) (left : Word.Short a) (right : Word.Short b) :
    Word.Short (combine a b) := by
  rw [Word.short_iff] at left right ⊢
  cases bitwise with
  | all =>
      rw [Int64.toBitVec_and, BitVec.sshiftRight_and_distrib]
      rcases left with left | left <;> rcases right with right | right <;> simp [left, right]
  | any =>
      rw [Int64.toBitVec_or, BitVec.sshiftRight_or_distrib]
      rcases left with left | left <;> rcases right with right | right <;> simp [left, right]

-- Bits that are rounded up to 2^63, which is no word.
def full (kept : Option Int64) : Bool :=
  kept.any fun bits => 2 ^ 63 - 512 ≤ bits.toInt

-- The bits after a further row, as they are before they are rounded. A row that cannot be merged with those
-- that are kept leaves them.
def carry (combine : Int64 → Int64 → Int64) (kept : Option Int64) (word : Int64) : Int64 :=
  match kept with
  | none => word
  | some bits =>
      match Word.ofInt? (wholeNearest bits.toInt) with
      | none => bits
      | some rounded => combine rounded word

def carried (combine : Int64 → Int64 → Int64) (kept : Option Int64) (words : List Int64) : Option Int64 :=
  words.foldl (fun kept word => some (carry combine kept word)) kept

def rounded (bits : Int64) : Datum :=
  .double (.ofInt bits.toInt)

theorem read_back (bits : Int64) :
    (full (some bits) = true ∧ Word.ofInt? (wholeNearest bits.toInt) = none) ∨
      (full (some bits) = false ∧ ∃ rounded, Word.ofInt? (wholeNearest bits.toInt) = some rounded ∧
        rounded.toInt = wholeNearest bits.toInt) := by
  have low := bits.le_toInt
  have high := bits.toInt_lt
  by_cases large : 2 ^ 63 - 512 ≤ bits.toInt
  · refine .inl ⟨by simpa [full] using large, ?_⟩
    rw [whole_nearest_top bits.toInt large (by omega)]
    rfl
  · obtain ⟨least, greatest⟩ := whole_nearest_inside bits.toInt (by omega) (by omega)
    refine .inr ⟨by simpa [full] using large, Word.of_int_inside _ ?_ ?_⟩
    · rw [Word.least]
      omega
    · rw [Word.greatest]
      omega

section Rows

variable (combine : Int64 → Int64 → Int64) (kept : Option Int64) (word : Int64) (words more : List Int64)

theorem full_carry (crowded : full kept = true) : some (carry combine kept word) = kept := by
  cases kept with
  | none => cases crowded
  | some bits =>
      rcases read_back bits with ⟨_, unread⟩ | ⟨room, _⟩
      · rw [carry, unread]
      · rw [room] at crowded
        cases crowded

theorem carried_append :
    carried combine kept (words ++ more) = carried combine (carried combine kept words) more :=
  List.foldl_append

theorem full_carried (crowded : full kept = true) : carried combine kept words = kept := by
  induction words with
  | nil => rfl
  | cons word words ih =>
      change carried combine (some (carry combine kept word)) words = kept
      rw [full_carry combine kept word crowded, ih]

theorem bits_with_double : bitsWith .double combine (.integer word) (kept.map rounded) =
    if full kept then .error .overflow else .ok (rounded (carry combine kept word)) := by
  cases kept with
  | none => rfl
  | some bits =>
      change (Datum.wordNearest (ofInt bits.toInt)).bind _ = _
      rw [word_nearest_of_int, Datum.fitted, carry]
      rcases read_back bits with ⟨crowded, unread⟩ | ⟨room, word, found, _⟩
      · rw [unread, if_pos crowded]
        rfl
      · rw [found, room]
        rfl

structure Carries (aggregate : Aggregate) (acc : Accumulator) (kept : Option Int64) : Prop where
  kind : acc.aggregate = aggregate
  type : acc.dataType = .double
  running : acc.running = kept.map rounded

variable (aggregate : Aggregate) (bitwise : Bitwise aggregate combine) (acc : Accumulator)

include bitwise

theorem fold_bits (row : Datum) (kind : acc.aggregate = aggregate) :
    acc.fold row = (bitsWith acc.dataType combine row acc.running).map fun running =>
      { acc with count := acc.count + 1, running := some running } := by
  subst kind
  obtain ⟨aggregate, dataType, count, running, moments, product, reciprocals, held⟩ := acc
  cases bitwise <;> rfl

theorem add_carries (carries : Carries aggregate acc kept) :
    (acc.add (.integer word) false).1 = (if full kept then .error .overflow else .ok ()) ∧
      Carries aggregate (acc.add (.integer word) false).2 (some (carry combine kept word)) := by
  have bits := bits_with_double combine kept word
  rw [← carries.running, ← carries.type] at bits
  rw [add_plain acc _ (by simp), fold_bits combine aggregate bitwise acc _ carries.kind, bits]
  by_cases crowded : full kept = true
  · rw [if_pos crowded, if_pos crowded, full_carry combine kept word crowded]
    exact ⟨rfl, carries⟩
  · rw [if_neg crowded, if_neg crowded]
    exact ⟨rfl, carries.kind, carries.type, rfl⟩

theorem fed_carries [PowerFunction] (carries : Carries aggregate acc kept) :
    Carries aggregate (acc.fed (words.map .integer) false) (carried combine kept words) := by
  induction words generalizing acc kept with
  | nil => exact carries
  | cons word words ih =>
      exact ih _ _ (add_carries combine kept word aggregate bitwise acc carries).2

omit bitwise in
theorem short_room (short : ∀ bits, kept = some bits → Word.Short bits) : full kept = false := by
  cases kept with
  | none => rfl
  | some bits =>
      have bound := (short bits rfl).2
      simp only [full, Option.any_some, decide_eq_false_iff_not]
      omega

theorem carry_short (short : ∀ bits, kept = some bits → Word.Short bits) (fits : Word.Short word) :
    Word.Short (carry combine kept word) := by
  cases kept with
  | none => exact fits
  | some bits =>
      have small := short bits rfl
      rw [carry, whole_nearest_small bits.toInt small.1 small.2.le, Word.of_int_word]
      exact bitwise_short aggregate combine bitwise bits word small fits

theorem taken_short [PowerFunction] (carries : Carries aggregate acc kept)
    (short : ∀ bits, kept = some bits → Word.Short bits) (fits : ∀ word ∈ words, Word.Short word) :
    acc.taken (words.map .integer) false = words.map (fun _ => true) := by
  induction words generalizing acc kept with
  | nil => rfl
  | cons word words ih =>
      obtain ⟨first, later⟩ := List.forall_mem_cons.mp fits
      obtain ⟨answer, next⟩ := add_carries combine kept word aggregate bitwise acc carries
      have further := carry_short combine kept word aggregate bitwise short first
      have rest := ih _ _ next (fun bits same => Option.some.inj same ▸ further) later
      rw [List.map_cons, List.map_cons, taken_cons, answer, short_room kept short, rest]
      rfl

end Rows

theorem taken_integers [PowerFunction] (aggregate : Aggregate) (combine : Int64 → Int64 → Int64)
    (bitwise : Bitwise aggregate combine) (words : List Int64) :
    (empty aggregate .integer).taken (words.map .integer) false = words.map (fun _ => true) := by
  have merges : Merges Datum.toInteger .integer combine aggregate .integer := by
    cases bitwise with
    | all => exact bit_and_merges
    | any => exact bit_or_merges
  have start : Keeps .integer combine aggregate .integer (empty aggregate .integer) [] := ⟨rfl, rfl, rfl, rfl⟩
  obtain ⟨answers, _⟩ := fed_kept _ (add_keeps merges) _ [] (words.map .integer) start
  have own (word : Int64) : (told Datum.toInteger (.integer word)).isOk = true := rfl
  have flags := congrArg (List.map Except.isOk) answers
  simpa [taken, Function.comp_def, own] using flags

/-- Over doubles a bitwise aggregate takes rows in until its bits are at least 2^63 - 512, which are rounded to 2^63;
from then on every row is refused as an overflow. -/
theorem bits_taken [PowerFunction] (aggregate : Aggregate) (combine : Int64 → Int64 → Int64)
    (bitwise : Bitwise aggregate combine) (words : List Int64) :
    let start := empty aggregate .double
    let rows := words.map Datum.integer
    (empty aggregate .integer).taken rows false = words.map (fun _ => true) ∧
      (∀ before word later, words = before ++ word :: later →
        (start.run (rows.map (.add · false)))[before.length]?.map (·.1) =
          some (if full (carried combine none before) then .error .overflow else .ok .added)) ∧
      (∀ before later, words = before ++ later → full (carried combine none before) = true →
        carried combine none words = carried combine none before) ∧
      (start.fed rows false).running = (carried combine none words).map rounded ∧
      ((∀ word ∈ words, Word.Short word) → start.taken rows false = words.map (fun _ => true)) := by
  intro start rows
  have carries : Carries aggregate start none := ⟨rfl, rfl, rfl⟩
  refine ⟨taken_integers aggregate combine bitwise words, ?_, ?_, ?_, ?_⟩
  · rintro before word later rfl
    have fed := fed_carries combine none before aggregate bitwise start carries
    have answer := (add_carries combine _ word aggregate bitwise _ fed).1
    have position : before.length = (before.map Datum.integer).length := by simp
    have split : rows = before.map .integer ++ .integer word :: later.map .integer := by simp [rows]
    rw [split, position, answer_at, answer]
    cases full (carried combine none before) <;> rfl
  · rintro before later rfl crowded
    rw [carried_append, full_carried combine _ later crowded]
  · exact (fed_carries combine none words aggregate bitwise start carries).running
  · exact taken_short combine none words aggregate bitwise start carries (by simp)

theorem bits_taken_crowded :
    let start := empty .bitOr .double
    let before : List Int64 := [4611686018427387904, 4611686018427387903]
    let words := before ++ [1]
    let small : List Int64 := [-5, 9007199254740991]
    Bitwise .bitOr (· ||| ·) ∧ full (carried (· ||| ·) none before) = true ∧
      (start.run ((words.map Datum.integer).map (.add · false)))[2]?.map (·.1) = some (.error .overflow) ∧
      carried (· ||| ·) none words = some 9223372036854775807 ∧
      (∀ word ∈ small, Word.Short word) ∧ start.taken (small.map .integer) false = [true, true] := by
  intro start before words small
  have crowded : full (carried (· ||| ·) none before) = true := by decide +kernel
  have short : ∀ word ∈ small, Word.Short word := by simp [small, Word.Short]
  obtain ⟨_, answers, stays, _, _⟩ := bits_taken .bitOr _ .any words
  have refused := answers before 1 [] rfl
  rw [crowded, if_pos rfl] at refused
  have kept := stays before [1] rfl crowded
  have bits : carried (· ||| ·) none before = some 9223372036854775807 := by decide +kernel
  exact ⟨.any, crowded, refused, kept.trans bits, short, (bits_taken .bitOr _ .any small).2.2.2.2 short⟩

theorem bits_refused :
    let rows : List Datum := [.integer 9223372036854775807, .integer 0]
    (empty .bitOr .double).taken rows false = [true, false] ∧
      ¬∀ words : List Int64,
        (empty .bitOr .double).taken (words.map .integer) false = words.map (fun _ => true) := by
  intro rows
  have flags : (empty .bitOr .double).taken rows false = [true, false] := by decide +kernel
  refine ⟨flags, fun all => ?_⟩
  have both := all [9223372036854775807, 0]
  rw [show [9223372036854775807, 0].map Datum.integer = rows from rfl, flags] at both
  cases both

end Accumulator

end Aggregation
