import Mathlib
import Aggregation.Datum.Order
import Aggregation.Proofs.Binary64.Integers

set_option autoImplicit false

namespace Aggregation

inductive Family where
  | truth
  | number
  | text
deriving DecidableEq

namespace Datum

def family? : Datum → Option Family
  | .null => none
  | .boolean _ => some .truth
  | .integer _ => some .number
  | .double _ => some .number
  | .text _ => some .text

def Comparable (a b : Datum) : Prop :=
  a = .null ∨ b = .null ∨ a.family? = b.family?

instance (a b : Datum) : Decidable (Comparable a b) :=
  inferInstanceAs (Decidable (_ ∨ _ ∨ _))

def standing? : Datum → Option Standing
  | .integer n => some (.ofRat n.toInt)
  | .double x => some x.standing
  | _ => none

-- Places for all values at once: NULL, then one class after the other.
abbrev Rank : Type := WithBot (Bool ⊕ₗ (Standing ⊕ₗ String))

def truthRank (b : Bool) : Rank := (toLex (.inl b) : Bool ⊕ₗ (Standing ⊕ₗ String))

def numberRank (s : Standing) : Rank := (toLex (.inr (toLex (.inl s))) : Bool ⊕ₗ (Standing ⊕ₗ String))

def textRank (s : String) : Rank := (toLex (.inr (toLex (.inr s))) : Bool ⊕ₗ (Standing ⊕ₗ String))

def rank : Datum → Rank
  | .null => ⊥
  | .boolean b => truthRank b
  | .integer n => numberRank (.ofRat n.toInt)
  | .double x => numberRank x.standing
  | .text s => textRank s

-- Where rounding makes the integer equal to the double, the double is whole.
theorem compare_mixed_place (n : Int64) (x : Binary64) (place : Int) (found : x.place? = some place) :
    compareMixed n x = Ord.compare (n.toInt * Binary64.unitsInOne) place := by
  have scale : StrictMono fun m : Int => m * Binary64.unitsInOne := fun _ _ less =>
    mul_lt_mul_of_pos_right less (Int.natCast_pos.mpr Binary64.units_in_one_pos)
  rw [compareMixed, Binary64.compareNumbers?, Binary64.place_of_int, found]
  simp only
  rcases lt_trichotomy (Binary64.roundedPlace n.toInt) place with less | same | more
  · have below : n.toInt * Binary64.unitsInOne < place := by
      by_contra above
      exact absurd (Binary64.le_rounded n.toInt x place found (not_lt.mp above)) (not_le.mpr less)
    rw [compare_lt_iff_lt.mpr below, compare_lt_iff_lt.mpr less]
    rfl
  · obtain ⟨low, high⟩ := Binary64.rounded_word_inside n
    have whole := Binary64.rounded_whole n.toInt
    rw [same] at low high whole
    have restored := Binary64.truncated_whole x place found low high whole
    rw [compare_eq_iff_eq.mpr same, settle, ← restored, ← cmp_eq_compare, ← cmp_eq_compare,
      ← scale.cmp_map_eq]
  · have above : place < n.toInt * Binary64.unitsInOne := by
      by_contra below
      exact absurd (Binary64.rounded_le n.toInt x place found (not_lt.mp below)) (not_le.mpr more)
    rw [compare_gt_iff_gt.mpr above, compare_gt_iff_gt.mpr more]
    rfl

theorem word_standing (n : Int64) :
    Standing.ofPlace (n.toInt * Binary64.unitsInOne) = .ofRat n.toInt := by
  obtain ⟨low, high⟩ := Binary64.word_inside n
  have unit : (Binary64.unitsInOne : ℚ) ≠ 0 := Nat.cast_ne_zero.mpr Binary64.units_in_one_pos.ne'
  rw [Binary64.of_place_inside _ low high, Int.cast_mul, Int.cast_natCast, mul_div_cancel_right₀ _ unit]

theorem compare_mixed_standing (n : Int64) (x : Binary64) :
    compareMixed n x = cmp (Standing.ofRat n.toInt) x.standing := by
  cases found : x.place? with
  | none =>
      have top : x.standing = ⊤ := by cases x <;> simp_all [Binary64.place?, Binary64.standing]
      rw [compareMixed, Binary64.compareNumbers?, Binary64.place_of_int, found, top]
      exact ((cmp_eq_lt_iff _ _).mpr (WithTop.coe_lt_top _)).symm
  | some place =>
      obtain ⟨low, high⟩ := Binary64.word_inside n
      obtain ⟨inside, standing⟩ := Binary64.place_standing x place found
      rw [compare_mixed_place n x place found, ← word_standing, standing,
        Binary64.of_place_strict_mono.cmp_map_eq ⟨low.le, high.le⟩ inside, cmp_eq_compare]

theorem compare_standing (a b : Datum) (s t : Standing) (left : a.standing? = some s)
    (right : b.standing? = some t) : a.compare b = .ok (cmp s t) := by
  have ratOrder : StrictMono fun n : Int => Standing.ofRat n := fun _ _ less =>
    Standing.of_rat_strict_mono (Int.cast_lt.mpr less)
  cases a <;> cases left <;> cases b <;> cases right
  case integer.refl.integer.refl n m =>
    rw [compare, ratOrder.cmp_map_eq, cmp_eq_compare]
  case integer.refl.double.refl n x => rw [compare, compare_mixed_standing]
  case double.refl.integer.refl x n => rw [compare, compare_mixed_standing, cmp_swap]
  case double.refl.double.refl x y => rw [compare, Binary64.compare_eq_standing]

theorem truth_rank_strict_mono : StrictMono truthRank := fun _ _ less =>
  WithBot.coe_lt_coe.mpr (Sum.Lex.inl_lt_inl_iff.mpr less)

theorem number_rank_strict_mono : StrictMono numberRank := fun _ _ less =>
  WithBot.coe_lt_coe.mpr (Sum.Lex.inr_lt_inr_iff.mpr (Sum.Lex.inl_lt_inl_iff.mpr less))

theorem text_rank_strict_mono : StrictMono textRank := fun _ _ less =>
  WithBot.coe_lt_coe.mpr (Sum.Lex.inr_lt_inr_iff.mpr (Sum.Lex.inr_lt_inr_iff.mpr less))

theorem null_rank_lt (a : Datum) (present : a ≠ .null) : Datum.null.rank < a.rank := by
  cases a with
  | null => exact absurd rfl present
  | boolean b => exact WithBot.bot_lt_coe _
  | integer n => exact WithBot.bot_lt_coe _
  | double x => exact WithBot.bot_lt_coe _
  | text s => exact WithBot.bot_lt_coe _

theorem null_compare (a : Datum) (present : a ≠ .null) : Datum.null.compare a = .ok .lt := by
  cases a <;> simp_all [compare]

theorem compare_null (a : Datum) (present : a ≠ .null) : a.compare .null = .ok .gt := by
  cases a <;> simp_all [compare]

theorem compare_same_family (a b : Datum) (same : a.family? = b.family?) :
    a.compare b = .ok (cmp a.rank b.rank) := by
  cases a <;> cases b <;> cases same
  case null.null => rfl
  case boolean.boolean b c => rw [compare, rank, rank, truth_rank_strict_mono.cmp_map_eq, cmp_eq_compare]
  case text.text s t => rw [compare, rank, rank, text_rank_strict_mono.cmp_map_eq, cmp_eq_compare]
  all_goals
    rw [rank, rank, number_rank_strict_mono.cmp_map_eq]
    exact compare_standing _ _ _ _ rfl rfl

theorem compare_rank (a b : Datum) (comparable : Comparable a b) :
    a.compare b = .ok (cmp a.rank b.rank) := by
  by_cases left : a = .null
  · by_cases right : b = .null
    · rw [left, right]
      exact compare_same_family .null .null rfl
    · rw [left, null_compare b right, (cmp_eq_lt_iff _ _).mpr (null_rank_lt b right)]
  · by_cases right : b = .null
    · rw [right, compare_null a left, (cmp_eq_gt_iff _ _).mpr (null_rank_lt a left)]
    · exact compare_same_family a b ((comparable.resolve_left left).resolve_left right)

theorem compare_refused (a b : Datum) (apart : ¬Comparable a b) :
    a.compare b = .error (.incomparable a.type? b.type?) := by
  cases a <;> cases b <;> simp_all [Comparable, family?, compare]

theorem comparable_iff (a b : Datum) : Comparable a b ↔ ∃ order, a.compare b = .ok order := by
  refine ⟨fun comparable => ⟨_, compare_rank a b comparable⟩, fun ⟨order, answer⟩ => ?_⟩
  by_contra apart
  rw [compare_refused a b apart] at answer
  cases answer

theorem comparable_symm (a b : Datum) (comparable : Comparable a b) : Comparable b a := by
  rcases comparable with left | right | same
  · exact .inr (.inl left)
  · exact .inl right
  · exact .inr (.inr same.symm)

-- NULL is compared with everything, so it cannot stand in the middle.
theorem comparable_trans (a b c : Datum) (present : b ≠ .null) (left : Comparable a b)
    (right : Comparable b c) : Comparable a c := by
  rcases left with null | null | same
  · exact .inl null
  · exact absurd null present
  · rcases right with null | null | next
    · exact absurd null present
    · exact .inr (.inl null)
    · exact .inr (.inr (same.trans next))

theorem comparable_of_rank (a b : Datum) (same : a.rank = b.rank) : Comparable a b := by
  cases a <;> cases b <;>
    simp_all [Comparable, family?, rank, truthRank, numberRank, textRank]

def AtMost (a b : Datum) : Prop :=
  ∃ order, a.compare b = .ok order ∧ order ≠ .gt

theorem at_most_iff (a b : Datum) : AtMost a b ↔ Comparable a b ∧ a.rank ≤ b.rank := by
  constructor
  · rintro ⟨order, answer, bound⟩
    have comparable := (comparable_iff a b).mpr ⟨order, answer⟩
    rw [compare_rank a b comparable, Except.ok.injEq] at answer
    refine ⟨comparable, not_lt.mp fun more => bound ?_⟩
    rw [← answer, (cmp_eq_gt_iff _ _).mpr more]
  · rintro ⟨comparable, le⟩
    refine ⟨_, compare_rank a b comparable, fun more => ?_⟩
    exact absurd ((cmp_eq_gt_iff _ _).mp more) (not_lt.mpr le)

theorem at_most_refl (a : Datum) : AtMost a a :=
  (at_most_iff a a).mpr ⟨.inr (.inr rfl), le_rfl⟩

theorem at_most_trans (a b c : Datum) (left : AtMost a b) (right : AtMost b c) : AtMost a c := by
  rw [at_most_iff] at left right ⊢
  refine ⟨?_, left.2.trans right.2⟩
  by_cases null : b = .null
  · have least : a.rank ≤ Datum.null.rank := null ▸ left.2
    by_cases first : a = .null
    · exact .inl first
    · exact absurd (null_rank_lt a first) (not_lt.mpr least)
  · exact comparable_trans a b c null left.1 right.1

theorem equals_compare (a b : Datum) (equal : a.equals b = true) : a.compare b = .ok .eq := by
  cases a <;> cases b <;> simp_all [equals, compare]

/-- The comparison of values is one order, which fails exactly between two classes, agrees with equality and takes
numbers by their exact values; NULL is least. -/
theorem compare_coherent (a b c : Datum) :
    (Comparable a b → ∃ order, a.compare b = .ok order ∧ b.compare a = .ok order.swap) ∧
      (¬Comparable a b → a.compare b = .error (.incomparable a.type? b.type?) ∧
        b.compare a = .error (.incomparable b.type? a.type?)) ∧
      (AtMost a b → AtMost b c → AtMost a c) ∧
      (a.equals b = true → a.compare b = .ok .eq) ∧
      (∀ s t, a.standing? = some s → b.standing? = some t → a.compare b = .ok (cmp s t)) ∧
      (a ≠ .null → Datum.null.compare a = .ok .lt) := by
  refine ⟨fun comparable => ?_, fun apart => ?_, at_most_trans a b c, equals_compare a b,
    compare_standing a b, null_compare a⟩
  · refine ⟨_, compare_rank a b comparable, ?_⟩
    rw [compare_rank b a (comparable_symm a b comparable), cmp_swap]
  · exact ⟨compare_refused a b apart,
      compare_refused b a fun comparable => apart (comparable_symm b a comparable)⟩

end Datum

end Aggregation
