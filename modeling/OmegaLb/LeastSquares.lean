import OmegaLb.Deviations
import Mathlib.Tactic.LinearCombination

/-! The line through finitely many points that has the least squared error. Nothing here names a system. -/
namespace OmegaLb.LeastSquares
open Deviations

section Sums
variable {K : Type} [Field K]

def sumX (pts : List (K × K)) : K := (pts.map Prod.fst).sum
def sumY (pts : List (K × K)) : K := (pts.map Prod.snd).sum
def sumXY (pts : List (K × K)) : K := (pts.map fun p => p.1 * p.2).sum
def sumXX (pts : List (K × K)) : K := (pts.map fun p => p.1 * p.1).sum

def numerator (pts : List (K × K)) : K := pts.length * sumXY pts - sumX pts * sumY pts
def denominator (pts : List (K × K)) : K := pts.length * sumXX pts - sumX pts * sumX pts

def fitSlope (pts : List (K × K)) : K := numerator pts / denominator pts
def fitIntercept (pts : List (K × K)) : K := (sumY pts - fitSlope pts * sumX pts) / pts.length

/-- The squared error of the line `a + b * x`. -/
def error (a b : K) (pts : List (K × K)) : K := (pts.map fun p => (p.2 - (a + b * p.1)) ^ 2).sum

/-- The square of a line that is no fit of anything. -/
def gap (u v : K) (pts : List (K × K)) : K := (pts.map fun p => (u + v * p.1) ^ 2).sum

/-- The residuals sum to zero, and so do they when weighed by `x`. -/
structure Normal (a b : K) (pts : List (K × K)) : Prop where
  level : sumY pts = pts.length * a + b * sumX pts
  tilt : sumXY pts = a * sumX pts + b * sumXX pts

theorem errorMoved (a b c d : K) (pts : List (K × K)) :
    error c d pts = error a b pts - 2 * ((c - a) * (sumY pts - (pts.length * a + b * sumX pts)) +
      (d - b) * (sumXY pts - (a * sumX pts + b * sumXX pts))) + gap (c - a) (d - b) pts := by
  induction pts with
  | nil => simp [error, gap, sumX, sumY, sumXY, sumXX]
  | cons p rest ih =>
    simp only [error, gap, sumX, sumY, sumXY, sumXX, List.map_cons, List.sum_cons, List.length_cons] at ih ⊢
    push_cast
    linear_combination ih

theorem errorNormal {a b : K} {pts : List (K × K)} (normal : Normal a b pts) (c d : K) :
    error c d pts = error a b pts + gap (c - a) (d - b) pts := by
  rw [errorMoved a b, ← normal.level, ← normal.tilt]
  ring

theorem fitNormal [CharZero K] {pts : List (K × K)} (nonzero : denominator pts ≠ 0) :
    Normal (fitIntercept pts) (fitSlope pts) pts := by
  have length : (pts.length : K) ≠ 0 := by
    intro zero
    have empty : pts = [] := List.length_eq_zero_iff.mp (Nat.cast_eq_zero.mp zero)
    exact nonzero (by simp [empty, denominator, sumX])
  have level : pts.length * fitIntercept pts = sumY pts - fitSlope pts * sumX pts := mul_div_cancel₀ _ length
  have quotient : fitSlope pts * denominator pts = numerator pts := div_mul_cancel₀ _ nonzero
  refine ⟨by rw [level]; ring, mul_left_cancel₀ length ?_⟩
  unfold denominator numerator at quotient
  linear_combination -quotient - sumX pts * level

theorem denominatorSquares [CharZero K] (pts : List (K × K)) :
    denominator pts = pts.length * squares (pts.map Prod.fst) := by
  have whole := meanSum (pts.map Prod.fst)
  have split := squaresMean 0 (pts.map Prod.fst)
  have sum : squaresFrom 0 (pts.map Prod.fst) = sumXX pts := by
    rw [squaresFrom, sumXX, List.map_map]
    refine congrArg List.sum (List.map_congr_left fun p _ => ?_)
    rw [Function.comp_apply, sub_zero, sq]
  rw [List.length_map] at whole split
  unfold denominator sumX
  rw [← sum, split, ← whole]
  ring

/-! ### Points moved up -/

def raised (k : K) (pts : List (K × K)) : List (K × K) := pts.map fun p => (p.1, p.2 + k)

theorem numeratorRaised (k : K) (pts : List (K × K)) : numerator (raised k pts) = numerator pts := by
  have sums : sumX (raised k pts) = sumX pts ∧ sumY (raised k pts) = sumY pts + pts.length * k ∧
      sumXY (raised k pts) = sumXY pts + k * sumX pts := by
    induction pts with
    | nil => simp [raised, sumX, sumY, sumXY]
    | cons p rest ih =>
      simp only [raised, sumX, sumY, sumXY, List.map_cons, List.sum_cons, List.length_cons] at ih ⊢
      obtain ⟨x, y, xy⟩ := ih
      push_cast
      refine ⟨by rw [x], by rw [y]; ring, by rw [xy]; ring⟩
  obtain ⟨x, y, xy⟩ := sums
  unfold numerator
  rw [x, y, xy, raised, List.length_map]
  ring

theorem denominatorRaised (k : K) (pts : List (K × K)) : denominator (raised k pts) = denominator pts := by
  simp [denominator, raised, sumX, sumXX, Function.comp_def]

theorem fitSlopeRaised (k : K) (pts : List (K × K)) : fitSlope (raised k pts) = fitSlope pts := by
  rw [fitSlope, fitSlope, numeratorRaised, denominatorRaised]

end Sums

section Order
variable {K : Type} [Field K] [LinearOrder K] [IsStrictOrderedRing K]

def Minimises (a b : K) (pts : List (K × K)) : Prop := ∀ (c d : K), error a b pts ≤ error c d pts

theorem denominatorNonzero {pts : List (K × K)} (apart : ¬ Constant (pts.map Prod.fst)) : denominator pts ≠ 0 := by
  have nonempty : (pts.length : K) ≠ 0 := by
    intro zero
    have empty : pts = [] := List.length_eq_zero_iff.mp (Nat.cast_eq_zero.mp zero)
    exact apart (by simp [empty, Constant])
  rw [denominatorSquares]
  exact mul_ne_zero nonempty fun zero => apart ((squaresZero _).mp zero)

theorem gapNonneg (u v : K) (pts : List (K × K)) : 0 ≤ gap u v pts := by
  refine List.sum_nonneg fun square inside => ?_
  obtain ⟨p, -, rfl⟩ := List.mem_map.mp inside
  exact sq_nonneg _

theorem gapEach {u v : K} {pts : List (K × K)} (zero : gap u v pts = 0) : ∀ x ∈ pts.map Prod.fst, u + v * x = 0 := by
  induction pts with
  | nil => simp
  | cons p rest ih =>
    have unfolded : gap u v (p :: rest) = (u + v * p.1) ^ 2 + gap u v rest := rfl
    rw [unfolded, add_eq_zero_iff_of_nonneg (sq_nonneg _) (gapNonneg u v rest), sq_eq_zero_iff] at zero
    rw [List.map_cons, List.forall_mem_cons]
    exact ⟨zero.1, ih zero.2⟩

theorem gapZero {u v : K} {pts : List (K × K)} (apart : ¬ Constant (pts.map Prod.fst)) (zero : gap u v pts = 0) :
    u = 0 ∧ v = 0 := by
  have each := gapEach zero
  have flat : v = 0 := by
    by_contra tilted
    refine apart fun x inside y also => mul_left_cancel₀ tilted ?_
    have first := each x inside
    have second := each y also
    linarith
  have some_ : pts.map Prod.fst ≠ [] := fun empty => apart (by simp [empty, Constant])
  obtain ⟨x, inside⟩ := List.exists_mem_of_ne_nil _ some_
  have level := each x inside
  rw [flat, zero_mul, add_zero] at level
  exact ⟨level, flat⟩

/-- Where the points do not stand above one another, one line has the least error. -/
theorem minimisesIff {pts : List (K × K)} (apart : ¬ Constant (pts.map Prod.fst)) (c d : K) :
    Minimises c d pts ↔ c = fitIntercept pts ∧ d = fitSlope pts := by
  have normal := fitNormal (denominatorNonzero apart)
  constructor
  · intro least
    have moved := errorNormal normal c d
    have below := least (fitIntercept pts) (fitSlope pts)
    have same := gapZero apart (le_antisymm (by linarith) (gapNonneg (c - fitIntercept pts) (d - fitSlope pts) pts))
    exact ⟨sub_eq_zero.mp same.1, sub_eq_zero.mp same.2⟩
  · rintro ⟨rfl, rfl⟩ c d
    rw [errorNormal normal c d]
    exact le_add_of_nonneg_right (gapNonneg _ _ pts)

end Order

end OmegaLb.LeastSquares
