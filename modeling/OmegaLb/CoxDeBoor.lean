import Mathlib.Algebra.BigOperators.Group.Finset.Basic
import Mathlib.Algebra.BigOperators.Group.Finset.Piecewise
import Mathlib.Algebra.Order.Field.Basic
import Mathlib.Data.List.Perm.Subperm
import Mathlib.Tactic.FieldSimp
import Mathlib.Tactic.Linarith
import Mathlib.Tactic.Ring

/-! B-splines over a sequence of knots that never falls, at a point of the span that begins at `m`.
What a span of no width would add is zero, as division by zero has it. Nothing here names a system. -/
namespace OmegaLb.CoxDeBoor

variable {K : Type} [Field K] {t : Nat → K} {x : K} {m : Nat}

def indicator (m j : Nat) : K := if j = m then 1 else 0

/-- Degree `k` from the degree below, by the recursion. -/
def raised (t : Nat → K) (x : K) (k : Nat) (b : Nat → K) (j : Nat) : K :=
  (x - t j) / (t (j + k) - t j) * b j + (t (j + k + 1) - x) / (t (j + k + 1) - t (j + 1)) * b (j + 1)

def basis (t : Nat → K) (x : K) (m : Nat) : Nat → Nat → K
  | 0 => indicator m
  | k + 1 => raised t x (k + 1) (basis t x m k)

theorem raisedZero {k j : Nat} {b : Nat → K} (here : b j = 0) (next : b (j + 1) = 0) : raised t x k b j = 0 := by
  rw [raised, here, next, mul_zero, mul_zero, add_zero]

/-- Only the functions whose knots enclose the span are not zero on it. -/
theorem basisSupport {k j : Nat} (nonzero : basis t x m k j ≠ 0) : j ≤ m ∧ m ≤ j + k := by
  induction k generalizing j with
  | zero =>
    by_cases same : j = m
    · omega
    · exact absurd (if_neg same) nonzero
  | succ k ih =>
    by_cases here : basis t x m k j = 0
    · have next : basis t x m k (j + 1) ≠ 0 := fun zero => nonzero (raisedZero here zero)
      have around := ih next
      omega
    · have around := ih here
      omega

theorem basisOutside {k j : Nat} (outside : m < j ∨ j + k < m) : basis t x m k j = 0 := by
  by_contra nonzero
  have around := basisSupport nonzero
  omega

theorem supportFew [DecidableEq K] (functions : Nat) {k : Nat} :
    (List.range functions).countP (fun j => decide (basis t x m k j ≠ 0)) ≤ k + 1 := by
  rw [List.countP_eq_length_filter]
  have within : ((List.range functions).filter fun j => decide (basis t x m k j ≠ 0)) ⊆
      List.range' (m - k) (k + 1) := by
    intro j member
    obtain ⟨first, last⟩ := basisSupport (of_decide_eq_true (List.mem_filter.mp member).2)
    exact List.mem_range'_1.mpr ⟨by omega, by omega⟩
  have few := ((List.nodup_range.filter _).subperm within).length_le
  rwa [List.length_range'] at few

/-! ### On the span -/

variable [LinearOrder K]

structure Span (t : Nat → K) (m : Nat) (x : K) : Prop where
  wide : t m < t (m + 1)
  low : t m ≤ x
  high : x ≤ t (m + 1)

omit [Field K] in
theorem spanExists {a b : Nat} (ordered : a ≤ b) (low : t a ≤ x) (high : x < t b) :
    ∃ m, a ≤ m ∧ m < b ∧ t m ≤ x ∧ x < t (m + 1) := by
  induction b, ordered using Nat.le_induction with
  | base => exact absurd high (not_lt.mpr low)
  | succ b ordered ih =>
    by_cases before : x < t b
    · obtain ⟨m, first, last, inside⟩ := ih before
      exact ⟨m, first, Nat.lt_succ_of_lt last, inside⟩
    · exact ⟨b, ordered, Nat.lt_succ_self b, not_lt.mp before, high⟩

omit [Field K] in
theorem spanUnique (rising : Monotone t) {j : Nat} (low : t m ≤ x) (high : x < t (m + 1)) :
    t j ≤ x ∧ x < t (j + 1) ↔ j = m := by
  refine ⟨fun inside => ?_, fun same => same ▸ ⟨low, high⟩⟩
  rcases Nat.lt_trichotomy j m with before | same | after
  · exact absurd (lt_of_lt_of_le inside.2 (rising before)) (not_lt.mpr low)
  · exact same
  · exact absurd (lt_of_lt_of_le high (rising after)) (not_lt.mpr inside.1)

variable [IsStrictOrderedRing K]

theorem basisNonneg (rising : Monotone t) (span : Span t m x) (k j : Nat) : 0 ≤ basis t x m k j := by
  induction k generalizing j with
  | zero =>
    rw [basis, indicator]
    split
    · exact zero_le_one
    · exact le_refl 0
  | succ k ih =>
    rw [basis, raised]
    refine add_nonneg ?_ ?_
    · by_cases here : basis t x m k j = 0
      · rw [here, mul_zero]
      · obtain ⟨first, last⟩ := basisSupport here
        have left := (rising first).trans span.low
        have width := rising (Nat.le_add_right j (k + 1))
        exact mul_nonneg (div_nonneg (sub_nonneg.mpr left) (sub_nonneg.mpr width)) (ih j)
    · by_cases next : basis t x m k (j + 1) = 0
      · rw [next, mul_zero]
      · obtain ⟨first, last⟩ := basisSupport next
        have right := span.high.trans (rising (show m + 1 ≤ j + (k + 1) + 1 by omega))
        have width := rising (show j + 1 ≤ j + (k + 1) + 1 by omega)
        exact mul_nonneg (div_nonneg (sub_nonneg.mpr right) (sub_nonneg.mpr width)) (ih (j + 1))

/-- The two shares that a function passes on to the degree above make up all of it. -/
theorem sharesWhole (rising : Monotone t) (span : Span t m x) {k j : Nat} :
    (t (j + k + 1) - x) / (t (j + k + 1) - t j) * basis t x m k j =
      basis t x m k j - (x - t j) / (t (j + k + 1) - t j) * basis t x m k j := by
  by_cases here : basis t x m k j = 0
  · rw [here, mul_zero, mul_zero, sub_zero]
  · obtain ⟨first, last⟩ := basisSupport here
    have low := rising first
    have high := rising (show m + 1 ≤ j + k + 1 by omega)
    have width : t (j + k + 1) - t j ≠ 0 := by
      have wide := span.wide
      exact (sub_pos.mpr (lt_of_le_of_lt low (lt_of_lt_of_le wide high))).ne'
    field_simp
    ring

theorem basisSum (rising : Monotone t) (span : Span t m x) {k n : Nat} (inside : k ≤ m) (whole : m < n) :
    ∑ j ∈ Finset.range n, basis t x m k j = 1 := by
  induction k with
  | zero =>
    simp only [basis, indicator, Finset.sum_ite_eq', Finset.mem_range]
    exact if_pos whole
  | succ k ih =>
    have below := ih (Nat.le_of_succ_le inside)
    have first : basis t x m k 0 = 0 := basisOutside (.inr (by omega))
    have last : basis t x m k n = 0 := basisOutside (.inl whole)
    have each : ∀ j, basis t x m (k + 1) j = basis t x m k (j + 1) -
        ((x - t (j + 1)) / (t (j + 1 + k + 1) - t (j + 1)) * basis t x m k (j + 1) -
          (x - t j) / (t (j + k + 1) - t j) * basis t x m k j) := by
      intro j
      have shares := sharesWhole rising span (k := k) (j := j + 1)
      have index : j + (k + 1) + 1 = j + 1 + k + 1 := by omega
      rw [basis, raised, index, shares]
      have sameIndex : j + (k + 1) = j + k + 1 := by omega
      rw [sameIndex]
      ring
    have shifted : ∑ j ∈ Finset.range n, basis t x m k (j + 1) = 1 := by
      have both := Finset.sum_range_succ (basis t x m k) n
      rw [Finset.sum_range_succ', first, last, below] at both
      simpa using both
    rw [Finset.sum_congr rfl fun j _ => each j, Finset.sum_sub_distrib, shifted,
      Finset.sum_range_sub fun j => (x - t j) / (t (j + k + 1) - t j) * basis t x m k j, first, last]
    simp

end OmegaLb.CoxDeBoor
