import Mathlib.Algebra.BigOperators.Group.List.Basic
import Mathlib.Algebra.Order.BigOperators.Group.List
import Mathlib.Algebra.Order.Field.Basic
import Mathlib.Tactic.FieldSimp
import Mathlib.Tactic.Linarith
import Mathlib.Tactic.Ring

/-! The mean of finitely many samples and their squared deviations from it, as one more sample moves
them. Nothing here names a system. -/
namespace OmegaLb.Deviations

section Moments
variable {K : Type} [Field K]

def mean (xs : List K) : K := xs.sum / xs.length

def squaresFrom (c : K) (xs : List K) : K := (xs.map fun x => (x - c) ^ 2).sum

def squares (xs : List K) : K := squaresFrom (mean xs) xs

theorem squaresFromSnoc (c : K) (xs : List K) (x : K) : squaresFrom c (xs ++ [x]) = squaresFrom c xs + (x - c) ^ 2 := by
  simp [squaresFrom]

theorem squaresFromMoved (c d : K) (xs : List K) :
    squaresFrom d xs = squaresFrom c xs - 2 * (d - c) * (xs.sum - xs.length * c) + xs.length * (d - c) ^ 2 := by
  induction xs with
  | nil => simp [squaresFrom]
  | cons x rest ih =>
    have unfolded : ∀ e, squaresFrom e (x :: rest) = (x - e) ^ 2 + squaresFrom e rest := fun e => rfl
    rw [unfolded, unfolded, ih, List.sum_cons, List.length_cons]
    push_cast
    ring

theorem meanSum [CharZero K] (xs : List K) : xs.length * mean xs = xs.sum := by
  cases xs with
  | nil => simp
  | cons x rest => exact mul_div_cancel₀ _ (Nat.cast_ne_zero.mpr (Nat.succ_ne_zero _))

theorem meanSnoc [CharZero K] (xs : List K) (x : K) :
    mean (xs ++ [x]) = mean xs + (x - mean xs) / (xs.length + 1 : K) := by
  have nonzero : (xs.length + 1 : K) ≠ 0 := Nat.cast_add_one_ne_zero _
  have whole := meanSum xs
  rw [mean, List.sum_append, List.length_append, List.sum_singleton, List.length_singleton, ← whole]
  push_cast
  field_simp
  ring

theorem squaresMean [CharZero K] (c : K) (xs : List K) :
    squaresFrom c xs = squares xs + xs.length * (mean xs - c) ^ 2 := by
  rw [squares, squaresFromMoved (mean xs) c, ← meanSum xs]
  ring

/-- One deviation is from the mean before the sample, the other from the mean after it. -/
theorem squaresSnoc [CharZero K] (xs : List K) (x : K) :
    squares (xs ++ [x]) = squares xs + (x - mean xs) * (x - mean (xs ++ [x])) := by
  have nonzero : (xs.length + 1 : K) ≠ 0 := Nat.cast_add_one_ne_zero _
  rw [squares, squaresFromSnoc, squaresMean, meanSnoc]
  field_simp
  ring

end Moments

section Order
variable {K : Type} [Field K] [LinearOrder K] [IsStrictOrderedRing K]

theorem squaresFromNonneg (c : K) (xs : List K) : 0 ≤ squaresFrom c xs := by
  refine List.sum_nonneg fun square inside => ?_
  obtain ⟨x, -, rfl⟩ := List.mem_map.mp inside
  exact sq_nonneg _

theorem squaresFromZero {c : K} {xs : List K} : squaresFrom c xs = 0 ↔ ∀ x ∈ xs, x = c := by
  induction xs with
  | nil => simp [squaresFrom]
  | cons x rest ih =>
    have unfolded : squaresFrom c (x :: rest) = (x - c) ^ 2 + squaresFrom c rest := rfl
    rw [unfolded, add_eq_zero_iff_of_nonneg (sq_nonneg _) (squaresFromNonneg c rest), ih, List.forall_mem_cons,
      sq_eq_zero_iff, sub_eq_zero]

theorem squaresNonneg (xs : List K) : 0 ≤ squares xs := squaresFromNonneg _ xs

def Constant (xs : List K) : Prop := ∀ x ∈ xs, ∀ y ∈ xs, x = y

theorem constantMean {xs : List K} (constant : Constant xs) {x : K} (inside : x ∈ xs) : x = mean xs := by
  have same : xs = List.replicate xs.length x :=
    List.eq_replicate_iff.mpr ⟨rfl, fun y also => constant y also x inside⟩
  have nonzero : (xs.length : K) ≠ 0 := Nat.cast_ne_zero.mpr (List.length_pos_of_mem inside).ne'
  have sum : xs.sum = xs.length * x := by rw [same, List.sum_replicate, List.length_replicate, nsmul_eq_mul]
  rw [mean, sum, mul_div_cancel_left₀ _ nonzero]

theorem squaresZero (xs : List K) : squares xs = 0 ↔ Constant xs := by
  rw [squares, squaresFromZero]
  constructor
  · intro same x inside y also
    rw [same x inside, same y also]
  · intro constant x inside
    exact constantMean constant inside

end Order

end OmegaLb.Deviations
