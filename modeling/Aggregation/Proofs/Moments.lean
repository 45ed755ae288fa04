import Mathlib
import Aggregation.Moments

set_option autoImplicit false

namespace Aggregation.Moments

section Gathering

variable {α : Type} [Zero α] [Add α] [Sub α] [Mul α] [Div α] (ofCount : Nat → α)

def gatherFrom (moments : Moments α) (count : Nat) : List α → Moments α
  | [] => moments
  | x :: numbers => gatherFrom (moments.push ofCount (count + 1) x) (count + 1) numbers

def gather (numbers : List α) : Moments α :=
  gatherFrom ofCount ⟨0, 0⟩ 0 numbers

theorem gather_from_append (moments : Moments α) (count : Nat) (numbers more : List α) :
    gatherFrom ofCount moments count (numbers ++ more) =
      gatherFrom ofCount (gatherFrom ofCount moments count numbers) (count + numbers.length) more := by
  induction numbers generalizing moments count with
  | nil => rfl
  | cons x numbers ih =>
      rw [List.cons_append, gatherFrom, ih, gatherFrom, List.length_cons, Nat.add_right_comm, Nat.add_assoc]

def moved (moments : Moments α) (x count : α) : Moments α :=
  let deviation := x - moments.mean
  let mean := moments.mean + deviation / count
  ⟨mean, moments.squares + deviation * (x - mean)⟩

theorem gather_push (numbers : List α) (x : α) :
    gather ofCount (numbers ++ [x]) = (gather ofCount numbers).push ofCount (numbers.length + 1) x := by
  rw [gather, gather_from_append, Nat.zero_add]
  rfl

theorem gather_one (x : α) : gather ofCount [x] = ⟨x, 0⟩ := rfl

theorem gather_next (numbers : List α) (x : α) (nonempty : numbers ≠ []) :
    gather ofCount (numbers ++ [x]) = (gather ofCount numbers).moved x (ofCount (numbers.length + 1)) := by
  rw [gather_push, push, if_neg (by simpa using nonempty)]
  rfl

end Gathering

def variance {α : Type} [One α] [Sub α] [Div α] (sample : Bool) (moments : Moments α) (count : α) : α :=
  if sample then moments.sampleVariance count else moments.populationVariance count

section Exact

-- What the moments of exact numbers are: the squares in the form that needs no mean.
structure Describes (numbers : List ℚ) (moments : Moments ℚ) : Prop where
  mean : numbers.length * moments.mean = numbers.sum
  squares : moments.squares = (numbers.map (· ^ 2)).sum - numbers.sum ^ 2 / numbers.length

theorem describes_next (numbers : List ℚ) (x : ℚ) (moments : Moments ℚ) (nonempty : numbers ≠ [])
    (describes : Describes numbers moments) :
    Describes (numbers ++ [x]) (moments.moved x (numbers.length + 1 : Nat)) := by
  obtain ⟨mean, squares⟩ := describes
  have before : (numbers.length : ℚ) ≠ 0 := by
    simpa using nonempty
  have after : (numbers.length : ℚ) + 1 ≠ 0 := Nat.cast_add_one_ne_zero numbers.length
  rw [moved]
  constructor
  · rw [List.length_append, List.length_singleton, List.sum_append, List.sum_singleton, ← mean]
    push_cast
    field_simp
    ring
  · rw [List.length_append, List.length_singleton, List.map_append, List.sum_append, List.sum_append, squares,
      List.map_singleton, List.sum_singleton, List.sum_singleton, ← mean]
    push_cast
    field_simp
    ring

theorem gather_describes (numbers : List ℚ) (nonempty : numbers ≠ []) :
    Describes numbers (gather Nat.cast numbers) := by
  induction numbers using List.reverseRecOn with
  | nil => exact absurd rfl nonempty
  | append_singleton before x ih =>
      by_cases first : before = []
      · subst first
        rw [List.nil_append, gather_one]
        constructor <;> simp
      · rw [gather_next Nat.cast before x first]
        exact describes_next before x _ first (ih first)

theorem describes_deviations (numbers : List ℚ) (moments : Moments ℚ) (nonempty : numbers ≠ [])
    (describes : Describes numbers moments) :
    moments.squares = (numbers.map fun x => (x - moments.mean) ^ 2).sum := by
  obtain ⟨mean, squares⟩ := describes
  have count : (numbers.length : ℚ) ≠ 0 := by
    simpa using nonempty
  have expand (x : ℚ) : (x - moments.mean) ^ 2 = x ^ 2 + (x * -(2 * moments.mean) + moments.mean ^ 2) := by
    ring
  have linear : (numbers.map fun x => x * -(2 * moments.mean)).sum = numbers.sum * -(2 * moments.mean) := by
    rw [numbers.sum_map_mul_right (fun x => x), List.map_id']
  have constant : (numbers.map fun _ => moments.mean ^ 2).sum = numbers.length * moments.mean ^ 2 := by
    rw [List.map_const', List.sum_replicate, nsmul_eq_mul]
  simp only [squares, expand, List.sum_map_add, linear, constant, ← mean]
  field_simp
  ring

theorem describes_perm (numbers others : List ℚ) (moments other : Moments ℚ) (perm : others.Perm numbers)
    (nonempty : numbers ≠ []) (left : Describes others other) (right : Describes numbers moments) :
    other = moments := by
  have count : (numbers.length : ℚ) ≠ 0 := by
    simpa using nonempty
  have mean : other.mean = moments.mean := by
    apply mul_left_cancel₀ count
    rw [right.mean, ← perm.sum_eq, ← left.mean, perm.length_eq]
  have squares : other.squares = moments.squares := by
    rw [left.squares, right.squares, perm.sum_eq, perm.length_eq, (perm.map (· ^ 2)).sum_eq]
  cases other
  cases moments
  rw [mk.injEq]
  exact ⟨mean, squares⟩

end Exact

end Aggregation.Moments
