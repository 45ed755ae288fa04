import Mathlib
import Aggregation.Proofs.Binary64.Power

set_option autoImplicit false

namespace Aggregation.Binary64

open Standing

def runningProduct : List Binary64 → Binary64
  | [] => zero
  | x :: later => later.foldl (· * ·) x

theorem running_product_append (numbers : List Binary64) (x : Binary64) (nonempty : numbers ≠ []) :
    runningProduct (numbers ++ [x]) = runningProduct numbers * x := by
  cases numbers with
  | nil => exact absurd rfl nonempty
  | cons first later => rw [List.cons_append, runningProduct, List.foldl_append]; rfl

-- Rounding moves a number below the normal doubles by half of the least double at most.
def halfUnit : ℚ := 1 / (2 * unitsInOne)

theorem half_unit_pos : 0 < halfUnit :=
  one_div_pos.mpr (mul_pos two_pos unit_rat_pos)

theorem two_half_units : 2 * halfUnit = 1 / unitsInOne := by
  rw [halfUnit, ← mul_div_assoc, mul_one, div_mul_cancel_left₀ two_ne_zero, one_div]

theorem least_normal_fixed : rounded leastNormal = ofRat leastNormal := by
  refine rounded_exact (finite false ⟨binade, by decide⟩) _ ?_
  change ofRat (value false binade) = _
  rw [value_eq_units, signed_false, Int.cast_natCast, units_binade, leastNormal]

theorem rounded_low (q r : ℚ) (same : rounded q = ofRat r) (positive : 0 ≤ q) (low : r < leastNormal) :
    q < leastNormal ∧ |q - r| ≤ halfUnit := by
  have below : q < leastNormal := lt_of_not_ge fun reached =>
    (stays_above _ _ _ same least_normal_fixed reached).not_gt low
  have few : |q| * 2 ^ unitPlaces ≤ 2 ^ 53 := by
    rw [abs_of_nonneg positive, ← units_in_one_cast]
    rw [leastNormal, lt_div_iff₀ unit_rat_pos] at below
    refine below.le.trans ?_
    exact_mod_cast (show binade ≤ 2 ^ 53 by decide)
  obtain ⟨other, again, near⟩ := rounded_near q unitPlaces (le_refl _) few
  obtain rfl := of_rat_strict_mono.injective (same.symm.trans again)
  rw [pow_succ', ← units_in_one_cast] at near
  exact ⟨below, near⟩

def lowered (q : ℚ) : ℚ := q * (1 - 1 / 2 ^ 53)

def raised (q : ℚ) : ℚ := q * (1 + 1 / 2 ^ 52)

structure Grown (lo hi p r : ℚ) : Prop where
  drops : lo * p - halfUnit ≤ r
  rises : r ≤ hi * p + halfUnit
  normal : leastNormal ≤ r → r ≤ hi * p
  kept : leastNormal ≤ lo * p → lo * p ≤ r

theorem grown_of_rounded (lo hi p q r : ℚ) (positive : 0 < lo) (low : lo ≤ q) (high : q ≤ hi) (still : 0 ≤ p)
    (same : rounded (p * q) = ofRat r) : Grown (lowered lo) (raised hi) p r := by
  have least : lo * p ≤ p * q := by
    rw [Rat.mul_comm]
    exact mul_le_mul_of_nonneg_left low still
  have most : p * q ≤ hi * p := by
    rw [Rat.mul_comm hi]
    exact mul_le_mul_of_nonneg_left high still
  have bottom : 0 ≤ lo * p := mul_nonneg positive.le still
  have spare := half_unit_pos
  have shrunk : lowered lo * p = lo * p * (1 - 1 / 2 ^ 53) := mul_right_comm _ _ _
  have stretched : raised hi * p = hi * p * (1 + 1 / 2 ^ 52) := mul_right_comm _ _ _
  rcases le_or_gt leastNormal r with normal | subnormal
  · have size := least_normal_pos.le.trans normal
    have relative := rounded_relative _ r same (by rwa [abs_of_nonneg size])
    rw [abs_of_nonneg size] at relative
    obtain ⟨under, above⟩ := abs_le.mp relative
    exact ⟨by linarith, by linarith, fun _ => by linarith, fun _ => by linarith⟩
  · obtain ⟨short, near⟩ := rounded_low _ r same (bottom.trans least) subnormal
    obtain ⟨under, above⟩ := abs_le.mp near
    exact ⟨by linarith, by linarith, fun normal => absurd subnormal normal.not_gt, fun reached => by linarith⟩

structure Spread (lo hi : ℚ) (count : Nat) (p : ℚ) : Prop where
  above : lo < 1 → lo ^ count - halfUnit / (1 - lo) ≤ p
  below : hi < 1 → p ≤ hi ^ count + halfUnit / (1 - hi)
  normal : leastNormal ≤ p → p ≤ hi ^ count
  kept : leastNormal ≤ lo ^ count → lo ^ count ≤ p

theorem spread_one (lo hi p : ℚ) (low : lo ≤ p) (high : p ≤ hi) : Spread lo hi 1 p := by
  have spare (c : ℚ) (less : c < 1) : 0 < halfUnit / (1 - c) := div_pos half_unit_pos (sub_pos.mpr less)
  constructor <;> rw [pow_one]
  · intro less
    linarith [spare lo less]
  · intro less
    linarith [spare hi less]
  · exact fun _ => high
  · exact fun _ => low

-- What was lost or gained before is multiplied along, and another half unit comes on top.
theorem carried (c : ℚ) (less : c < 1) : c * (halfUnit / (1 - c)) + halfUnit = halfUnit / (1 - c) := by
  have gap : 1 - c ≠ 0 := (sub_pos.mpr less).ne'
  field_simp
  ring

theorem least_normal_lt_one : leastNormal < 1 :=
  least_normal_le.trans_lt (by norm_num)

theorem spread_succ (lo hi p r : ℚ) (count : Nat) (positive : 0 < lo) (between : lo ≤ hi) (still : 0 ≤ p)
    (spread : Spread lo hi count p) (grown : Grown lo hi p r) : Spread lo hi (count + 1) r := by
  have top := positive.trans_le between
  refine ⟨fun less => ?_, fun less => ?_, fun normal => ?_, fun reached => ?_⟩
  · have before := mul_le_mul_of_nonneg_left (spread.above less) positive.le
    rw [mul_sub] at before
    rw [pow_succ']
    linarith [carried lo less, grown.drops]
  · have before := mul_le_mul_of_nonneg_left (spread.below less) top.le
    rw [mul_add] at before
    rw [pow_succ']
    linarith [carried hi less, grown.rises]
  · have last := grown.normal normal
    rw [pow_succ']
    rcases le_or_gt leastNormal p with high | low
    · exact last.trans (mul_le_mul_of_nonneg_left (spread.normal high) top.le)
    · have grows : 1 < hi := by
        by_contra short
        have shrinks := mul_le_of_le_one_left still (not_lt.mp short)
        linarith
      have large := one_le_pow₀ (n := count) grows.le
      exact last.trans (mul_le_mul_of_nonneg_left (by linarith [least_normal_lt_one]) top.le)
  · rw [pow_succ'] at reached ⊢
    have earlier : leastNormal ≤ lo ^ count := by
      rcases le_or_gt lo 1 with shrinks | grows
      · exact reached.trans (mul_le_of_le_one_left (pow_nonneg positive.le count) shrinks)
      · exact least_normal_lt_one.le.trans (one_le_pow₀ grows.le)
    have whole := mul_le_mul_of_nonneg_left (spread.kept earlier) positive.le
    exact whole.trans (grown.kept (reached.trans whole))

theorem standing_inside (x : Binary64) (lo hi : ℚ) (inside : x.standing ∈ Set.Icc (ofRat lo) (ofRat hi)) :
    ∃ q, x.standing = ofRat q ∧ lo ≤ q ∧ q ≤ hi := by
  obtain ⟨q, _, stands⟩ := between_finite x lo hi (Set.Icc_subset_uIcc inside)
  rw [stands] at inside
  exact ⟨q, stands, of_rat_strict_mono.le_iff_le.mp inside.1, of_rat_strict_mono.le_iff_le.mp inside.2⟩

theorem lowered_le (q : ℚ) (positive : 0 < q) : 0 < lowered q ∧ lowered q ≤ q := by
  rw [lowered]
  constructor <;> linarith

theorem le_raised (q : ℚ) (positive : 0 < q) : q ≤ raised q := by
  rw [raised]
  linarith

theorem product_form (index place : Fin finiteCount) :
    finite false index * finite false place = infinity false ∨
      ∃ next, finite false index * finite false place = finite false next := by
  change ofIndex false _ = _ ∨ ∃ next, ofIndex false _ = _
  rw [ofIndex]
  split
  next fits => exact .inr ⟨_, rfl⟩
  next => exact .inl rfl

theorem not_infinite_before (x : Binary64) (place : Fin finiteCount) (later : 0 < place.val)
    (bounded : x * finite false place ≠ infinity false) : x ≠ infinity false := by
  rintro rfl
  refine bounded ?_
  change (if place.val = 0 then nan else infinity false) = _
  rw [if_neg later.ne']

theorem running_product_spread (numbers : List Binary64) (lo hi : ℚ) (positive : 0 < lo) (nonempty : numbers ≠ [])
    (inside : ∀ x ∈ numbers, x.standing ∈ Set.Icc (ofRat lo) (ofRat hi))
    (bounded : runningProduct numbers ≠ .infinity false) : ∃ index, runningProduct numbers = .finite false index ∧
      Spread (lowered lo) (raised hi) numbers.length (value false index) := by
  induction numbers using List.reverseRecOn with
  | nil => exact absurd rfl nonempty
  | append_singleton before x ih =>
      obtain ⟨earlier, last⟩ := List.forall_mem_append.mp inside
      obtain ⟨q, exact_x, low, high⟩ := standing_inside x lo hi (last x List.mem_cons_self)
      obtain ⟨place, later, rfl, _⟩ := positive_form x q exact_x (positive.trans_le low)
      obtain ⟨above, under⟩ := lowered_le lo positive
      have wide := le_raised hi (positive.trans_le (low.trans high))
      by_cases first : before = []
      · subst first
        refine ⟨place, rfl, ?_⟩
        rw [of_rat_strict_mono.injective exact_x]
        exact spread_one _ _ _ (under.trans low) (high.trans wide)
      · rw [running_product_append before _ first] at bounded ⊢
        obtain ⟨index, product, spread⟩ := ih first earlier (not_infinite_before _ place later bounded)
        rw [product] at bounded ⊢
        obtain ⟨next, form⟩ := (product_form index place).resolve_left bounded
        have rounding := mul_rounded (finite false index) _ _ q rfl exact_x
        rw [form] at rounding
        have still : 0 ≤ value false index := by
          rw [value_eq_units, signed_false, Int.cast_natCast]
          exact div_nonneg (Nat.cast_nonneg _) (Nat.cast_nonneg _)
        refine ⟨next, form, ?_⟩
        rw [List.length_append, List.length_singleton]
        exact spread_succ _ _ _ _ _ above (under.trans (low.trans (high.trans wide))) still spread
          (grown_of_rounded lo hi _ q _ positive low high still rounding.symm)

end Aggregation.Binary64
