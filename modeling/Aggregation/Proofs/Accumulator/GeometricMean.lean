import Mathlib
import Aggregation.Proofs.Accumulator.Combined
import Aggregation.Proofs.Binary64.Thousandths
import Aggregation.Proofs.ProductRoot

set_option autoImplicit false

namespace Aggregation

namespace Binary64

open Standing

def isSubnormal : Binary64 → Bool
  | .finite _ index => 0 < index.val && index.val < binade
  | _ => false

-- What the product of numbers between two bounds must not have come to: it has not overflowed, has vanished only
-- where a mean of zero is near enough, and below the normal doubles rounding has not held it above what the rows
-- allow. The first two cases of the last field are such that it cannot.
structure Sustained (numbers : List Binary64) (lo hi : ℚ) : Prop where
  bounded : runningProduct numbers ≠ .infinity false
  vanishing : runningProduct numbers = zero → lo ≤ 1 / 1000
  sinking : (runningProduct numbers).isSubnormal = true → hi ≤ 1 / 8 ∨ 1 / unitsInOne ≤ hi ^ numbers.length ∨
    (runningProduct numbers).standing ≤ ofRat ((hi + 1 / 2040) ^ numbers.length)

theorem least_double (index : Nat) (later : 0 < index) : 2 * halfUnit ≤ value false index := by
  rw [two_half_units, value_eq_units, signed_false, Int.cast_natCast, div_le_div_iff_of_pos_right unit_rat_pos]
  exact Nat.one_le_cast.mpr (units_pos index later)

theorem sustained_below (numbers : List Binary64) (lo hi : ℚ) (index : Fin finiteCount) (positive : 0 < hi)
    (counted : 1 ≤ numbers.length) (sustained : Sustained numbers lo hi)
    (product : runningProduct numbers = finite false index) (later : 0 < index.val)
    (spread : Spread (lowered lo) (raised hi) numbers.length (value false index)) :
    value false index ≤ (raised hi + margin) ^ numbers.length := by
  have alive := least_double index later
  have wide := le_raised hi positive
  have high := spread_high _ _ _ _ spread (positive.trans_le wide) alive counted
  rcases Nat.lt_or_ge index.val binade with short | normal
  · have sinking := sustained.sinking
    rw [product, isSubnormal, decide_eq_true later, decide_eq_true short] at sinking
    rcases sinking rfl with small | reached | held
    · refine high fun _ => .inl ?_
      rw [raised]
      linarith
    · refine high fun _ => .inr ?_
      rw [two_half_units]
      exact reached.trans (pow_le_pow_left₀ positive.le wide _)
    · rw [standing, of_rat_strict_mono.le_iff_le] at held
      exact held.trans (pow_le_pow_left₀ (by positivity) (add_le_add_left wide _) _)
  · have size := (normal_index false index).mpr normal
    rw [abs_of_nonneg ((mul_pos two_pos half_unit_pos).le.trans alive)] at size
    exact high fun low => absurd low size.not_gt

theorem product_held (least x : Binary64) (held : least * x = least) (count : Nat) :
    runningProduct (least :: List.replicate count x) = least := by
  rw [runningProduct]
  induction count with
  | zero => rfl
  | succ count ih => rw [List.replicate_succ, List.foldl_cons, held, ih]

section Mean

variable [PowerFunction] (accurate : AccuratePower) (numbers : List Binary64) (lo hi : ℚ) (positive : 0 < lo)
  (between : lo ≤ hi) (most : hi ≤ 1000000) (counted : 1 ≤ numbers.length) (few : numbers.length < 2 ^ 64)

include accurate positive between most counted few

theorem power_within (index : Fin finiteCount) (later : 0 < index.val)
    (spread : Spread (lowered lo) (raised hi) numbers.length (value false index))
    (under : value false index ≤ (raised hi + margin) ^ numbers.length) : ∃ r,
    (PowerFunction.power (finite false index) (one / ofNat numbers.length)).standing = ofRat r ∧
      lo - 49999 / 100000000 ≤ r ∧ r ≤ hi + 49999 / 100000000 := by
  obtain ⟨e, inverse, ePos, eHigh, near⟩ := reciprocal_near _ counted few
  have alive := least_double index later
  have pPos : 0 < value false index := (mul_pos two_pos half_unit_pos).trans_le alive
  obtain ⟨r, powered, close⟩ := accurate.near (finite false index) _ _ e rfl inverse pPos ePos eHigh
  obtain ⟨low, high⟩ := root_within lo hi _ e _ positive between most alive spread under ePos near
  have still := Real.rpow_pos_of_pos (Rat.cast_pos (K := ℝ).mpr pPos) e
  have mostReal := (Rat.cast_le (K := ℝ)).mpr most
  push_cast at mostReal
  have last := ulp_le _ 21 still (by norm_num; linarith) (by norm_num)
  have apart : |(r : ℝ) - (value false index : ℚ) ^ (e : ℝ)| ≤ 1 / 2 ^ 32 := close.trans (last.trans (by norm_num))
  obtain ⟨less, more⟩ := abs_le.mp apart
  refine ⟨r, powered, ?_, ?_⟩
  · rw [← Rat.cast_le (K := ℝ)]
    push_cast
    linarith
  · rw [← Rat.cast_le (K := ℝ)]
    push_cast
    linarith

end Mean

end Binary64

namespace Accumulator

open Binary64 Standing

structure Multiplies (acc : Accumulator) (numbers : List Binary64) : Prop where
  kind : acc.aggregate = .geometricMean
  count : acc.count = numbers.length
  product : acc.product = runningProduct numbers

theorem add_multiplies (acc : Accumulator) (numbers : List Binary64) (row : Datum) (present : row ≠ .null)
    (multiplies : Multiplies acc numbers) : Kept Datum.toDouble Multiplies acc numbers row (acc.add row false) := by
  obtain ⟨aggregate, dataType, count, running, moments, product, reciprocals, held⟩ := acc
  obtain ⟨kind, counted, multiplied⟩ := multiplies
  dsimp only at kind counted multiplied
  subst kind counted multiplied
  rw [add_plain _ row present, fold]
  cases answer : row.toDouble with
  | error failure => exact .refused failure answer
  | ok x =>
      refine .taken x _ answer ⟨rfl, by rw [List.length_append]; rfl, ?_⟩
      cases numbers with
      | nil => rfl
      | cons first later =>
          have more : (first :: later).length + 1 ≠ 1 := Nat.succ_ne_succ_iff.mpr (Nat.succ_ne_zero _)
          rw [running_product_append _ _ (List.cons_ne_nil first later)]
          change (if (first :: later).length + 1 = 1 then x else runningProduct (first :: later) * x) = _
          rw [if_neg more]

theorem gleaned_doubles (numbers : List Binary64) : gleaned Datum.toDouble (numbers.map .double) = numbers := by
  induction numbers with
  | nil => rfl
  | cons x later ih =>
      rw [List.map_cons, gleaned_cons _ _ _ (Datum.noConfusion), ih]
      rfl

theorem geometric_outcome [PowerFunction] (acc : Accumulator) (kind : acc.aggregate = .geometricMean) :
    acc.outcome = .ok (if acc.count = 0 then .unfounded
      else .value (.double (PowerFunction.power acc.product (one / ofNat acc.count)).toThousandths)) := by
  obtain ⟨aggregate, dataType, count, running, moments, product, reciprocals, held⟩ := acc
  subst kind
  rfl

theorem geometric_answer [PowerFunction] (acc : Accumulator) (target : DataType) (kind : acc.aggregate = .geometricMean)
    (counted : acc.count ≠ 0) :
    (acc.finish target false).1 =
      (Datum.double (PowerFunction.power acc.product (one / ofNat acc.count)).toThousandths).convert target := by
  change acc.answer target = _
  rw [answer, geometric_outcome acc kind, if_neg counted]
  rfl

section Mean

variable [PowerFunction] (accurate : AccuratePower) (dataType : DataType) (rows : List Datum)

theorem geometric_rooted (nonempty : gleaned Datum.toDouble rows ≠ []) :
    (((empty .geometricMean dataType).fed rows false).finish .double false).1 =
      .ok (.double (PowerFunction.power (runningProduct (gleaned Datum.toDouble rows))
        (one / ofNat (gleaned Datum.toDouble rows).length)).toThousandths) := by
  have start : Multiplies (empty .geometricMean dataType) [] := ⟨rfl, rfl, rfl⟩
  obtain ⟨_, _, kind, count, product⟩ := fed_kept _ add_multiplies _ [] rows start
  rw [List.nil_append] at count product
  have counted : ((empty .geometricMean dataType).fed rows false).count ≠ 0 := by
    rw [count]
    exact (List.length_pos_iff.mpr nonempty).ne'
  rw [geometric_answer _ .double kind counted, product, count]
  rfl

include accurate

theorem geometric_mean_lost (nonempty : gleaned Datum.toDouble rows ≠ [])
    (few : (gleaned Datum.toDouble rows).length < 2 ^ 64) :
    (runningProduct (gleaned Datum.toDouble rows) = .infinity false →
      (((empty .geometricMean dataType).fed rows false).finish .double false).1 =
        .ok (.double (.ofBits 0x4340624dd2f1a9fc))) ∧
      (runningProduct (gleaned Datum.toDouble rows) = zero →
        (((empty .geometricMean dataType).fed rows false).finish .double false).1 = .ok (.double zero)) := by
  obtain ⟨e, inverse, positive, _, _⟩ := reciprocal_near _ (List.length_pos_iff.mpr nonempty) few
  rw [geometric_rooted dataType rows nonempty]
  constructor
  · intro burst
    rw [burst, accurate.infinity _ e inverse positive]
    decide +kernel
  · intro vanished
    rw [vanished, accurate.zero _ e inverse positive]
    decide +kernel

end Mean

/-- A geometric mean of rows between two positive bounds, the upper one a million at most, lies between these
bounds, up to a thousandth on either side, for any power function that is accurate to a unit in the last place.
It does for as many rows as can be counted, as long as their product is sustained. -/
theorem geometric_mean_between [PowerFunction] (accurate : AccuratePower) (dataType : DataType) (rows : List Datum)
    (lo hi : ℚ) (positive : 0 < lo) (most : hi ≤ 1000000) (nonempty : gleaned Datum.toDouble rows ≠ [])
    (few : (gleaned Datum.toDouble rows).length < 2 ^ 64)
    (inside : ∀ x ∈ gleaned Datum.toDouble rows, x.standing ∈ Set.Icc (ofRat lo) (ofRat hi))
    (sustained : Sustained (gleaned Datum.toDouble rows) lo hi) :
    ∃ x r, (((empty .geometricMean dataType).fed rows false).finish .double false).1 = .ok (.double x) ∧
      x.standing = ofRat r ∧ lo - 1 / 1000 ≤ r ∧ r ≤ hi + 1 / 1000 := by
  obtain ⟨_, vanished⟩ := geometric_mean_lost accurate dataType rows nonempty few
  have rooted := geometric_rooted dataType rows nonempty
  generalize gleaned Datum.toDouble rows = numbers at *
  obtain ⟨first, _, list⟩ := List.exists_cons_of_ne_nil nonempty
  obtain ⟨q, _, low, high⟩ := standing_inside first lo hi (inside first (list ▸ List.mem_cons_self))
  have between := low.trans high
  obtain ⟨index, product, spread⟩ := running_product_spread numbers lo hi positive nonempty inside sustained.bounded
  by_cases vanishes : runningProduct numbers = zero
  · have least := sustained.vanishing vanishes
    exact ⟨zero, 0, vanished vanishes, is_zero_standing zero rfl, by linarith, by linarith⟩
  · have later : 0 < index.val := Nat.pos_of_ne_zero fun same => vanishes (by
      rw [product]
      exact congrArg (finite false) (Fin.ext same))
    have counted := List.length_pos_iff.mpr nonempty
    have under := sustained_below numbers lo hi index (positive.trans_le between) counted sustained product later spread
    obtain ⟨r, powered, above, below⟩ := power_within accurate numbers lo hi positive between most counted few index
      later spread under
    have bounded : |r| ≤ 1048575 := abs_le.mpr ⟨by linarith, by linarith⟩
    obtain ⟨k, stands, near⟩ := to_thousandths_small _ r powered bounded
    obtain ⟨less, more⟩ := abs_le.mp near
    rw [product] at rooted
    exact ⟨_, k, rooted, stands, by linarith, by linarith⟩

theorem geometric_mean_between_three :
    let rows : List Datum := [.double (.ofBits 0x3fe0000000000000), .null, .integer 8, .text "2"]
    let numbers := gleaned Datum.toDouble rows
    AccuratePower ∧ numbers ≠ [] ∧ numbers.length = 3 ∧ Sustained numbers (1 / 2) 8 ∧
      (∀ x ∈ numbers, x.standing ∈ Set.Icc (ofRat (1 / 2)) (ofRat 8)) ∧
      (((empty .geometricMean .double).fed rows false).finish .double false).1 =
        .ok (.double (.ofBits 0x4000000000000000)) ∧
      ∃ x r, (((empty .geometricMean .double).fed rows false).finish .double false).1 = .ok (.double x) ∧
        x.standing = ofRat r ∧ 1 / 2 - 1 / 1000 ≤ r ∧ r ≤ 8 + 1 / 1000 := by
  intro rows numbers
  have read : numbers = [.finite false ⟨0x3fe0000000000000, by decide⟩,
      .finite false ⟨0x4020000000000000, by decide⟩, .finite false ⟨0x4000000000000000, by decide⟩] := by
    decide +kernel
  have nonempty : numbers ≠ [] := by rw [read]; exact List.cons_ne_nil _ _
  have length : numbers.length = 3 := by rw [read]; rfl
  have product : runningProduct numbers = .ofBits 0x4020000000000000 := by decide +kernel
  have sustained : Sustained numbers (1 / 2) 8 := by
    constructor <;> rw [product]
    · decide +kernel
    · intro vanished
      exact absurd vanished (by decide +kernel)
    · intro low
      exact absurd low (by decide +kernel)
  have inside : ∀ x ∈ numbers, x.standing ∈ Set.Icc (ofRat (1 / 2)) (ofRat 8) := by
    intro x member
    rw [read] at member
    simp only [List.mem_cons, List.not_mem_nil, or_false] at member
    rcases member with rfl | rfl | rfl <;>
      rw [standing, Set.mem_Icc, of_rat_strict_mono.le_iff_le, of_rat_strict_mono.le_iff_le, value] <;> norm_num
  exact ⟨nearest_powers_accurate, nonempty, length, sustained, inside, by decide +kernel,
    geometric_mean_between nearest_powers_accurate .double rows (1 / 2) 8 (by norm_num) (by norm_num) nonempty
      (by rw [length]; norm_num) inside sustained⟩

-- The product of sixty rows of a million overflows, that of 130 rows of two thousandths is zero, and the least
-- double is held by any number of rows of 0.51.
theorem geometric_mean_escapes :
    let answer [PowerFunction] (rows : List Datum) :=
      (((empty .geometricMean .double).fed rows false).finish .double false).1
    (∀ [PowerFunction], AccuratePower →
      answer (List.replicate 60 (.integer 1000000)) = .ok (.double (.ofBits 0x4340624dd2f1a9fc)) ∧
        answer (List.replicate 130 (.double (.ofBits 0x3f60624dd2f1a9fc))) = .ok (.double .zero)) ∧
      answer ((.ofBits 1 :: List.replicate 1199 (.ofBits 0x3fe051eb851eb852)).map .double) =
        .ok (.double (.ofBits 0x3fe1374bc6a7ef9e)) ∧
      ¬∃ _ : PowerFunction, AccuratePower ∧ ∀ (rows : List Datum) (lo hi : ℚ), 0 < lo → hi ≤ 1000000 →
        gleaned Datum.toDouble rows ≠ [] →
        (∀ x ∈ gleaned Datum.toDouble rows, x.standing ∈ Set.Icc (ofRat lo) (ofRat hi)) →
        ∃ x r, answer rows = .ok (.double x) ∧ x.standing = ofRat r ∧ lo - 1 / 1000 ≤ r ∧ r ≤ hi + 1 / 1000 := by
  intro answer
  have lost [PowerFunction] (accurate : AccuratePower) :
      answer (List.replicate 60 (.integer 1000000)) = .ok (.double (.ofBits 0x4340624dd2f1a9fc)) ∧
        answer (List.replicate 130 (.double (.ofBits 0x3f60624dd2f1a9fc))) = .ok (.double .zero) :=
    ⟨(geometric_mean_lost accurate .double _ (by decide +kernel) (by decide +kernel)).1 (by decide +kernel),
      (geometric_mean_lost accurate .double _ (by decide +kernel) (by decide +kernel)).2 (by decide +kernel)⟩
  have million : (finite false ⟨0x412e848000000000, by decide⟩).standing = ofRat 1000000 := by
    rw [standing, value]
    norm_num
  have word : (ofBits 0x4340624dd2f1a9fc).standing = ofRat 9223372036854776 := by
    have form : ofBits 0x4340624dd2f1a9fc = .finite false ⟨0x4340624dd2f1a9fc, by decide⟩ := by decide +kernel
    rw [form, standing, value]
    norm_num
  have held : answer ((.ofBits 1 :: List.replicate 1199 (.ofBits 0x3fe051eb851eb852)).map .double) =
      .ok (.double (.ofBits 0x3fe1374bc6a7ef9e)) := by
    have nonempty : gleaned Datum.toDouble
        ((.ofBits 1 :: List.replicate 1199 (.ofBits 0x3fe051eb851eb852)).map .double) ≠ [] := by
      rw [gleaned_doubles]
      exact List.cons_ne_nil _ _
    refine (geometric_rooted .double _ nonempty).trans ?_
    rw [gleaned_doubles, product_held _ _ (by decide +kernel), List.length_cons, List.length_replicate]
    decide +kernel
  refine ⟨lost, held, ?_⟩
  rintro ⟨_, accurate, always⟩
  have same : ∀ x ∈ gleaned Datum.toDouble (List.replicate 60 (.integer 1000000)),
      x = .finite false ⟨0x412e848000000000, by decide⟩ := by decide +kernel
  obtain ⟨x, r, answered, stands, _, high⟩ :=
    always (List.replicate 60 (.integer 1000000)) 1000000 1000000 (by norm_num) (le_refl _) (by decide +kernel)
      fun x member => by rw [same x member, million]; exact ⟨le_refl _, le_refl _⟩
  rw [(lost accurate).1] at answered
  cases answered
  rw [word] at stands
  obtain rfl := of_rat_strict_mono.injective stands
  norm_num at high

end Accumulator

end Aggregation
