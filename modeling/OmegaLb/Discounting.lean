import Mathlib.Algebra.BigOperators.Ring.Finset
import Mathlib.Data.List.GetD
import Mathlib.Tactic.Ring

/-! Discounted sums, taken apart at their first term. Nothing here names a system. -/
namespace OmegaLb.Discounting

variable {K : Type} [CommRing K] {g : K} {f h : Nat → K}

def discounted (g : K) (f : Nat → K) (n : Nat) : K := ∑ k ∈ Finset.range n, g ^ k * f k

theorem discountedHead (g : K) (f : Nat → K) (n : Nat) :
    discounted g f (n + 1) = f 0 + g * discounted g (fun k => f (k + 1)) n := by
  rw [discounted, discounted, Finset.sum_range_succ', Finset.mul_sum, pow_zero, one_mul, add_comm]
  refine congrArg (f 0 + ·) (Finset.sum_congr rfl fun k _ => ?_)
  rw [pow_succ', mul_assoc]

theorem discountedSame {n : Nat} (same : ∀ k, k < n → f k = h k) : discounted g f n = discounted g h n :=
  Finset.sum_congr rfl fun k inside => by rw [same k (Finset.mem_range.mp inside)]

theorem discountedZero {n : Nat} (zero : ∀ k, k < n → f k = 0) : discounted g f n = 0 :=
  Finset.sum_eq_zero fun k inside => by rw [zero k (Finset.mem_range.mp inside), mul_zero]

/-- The values of a list, each discounted once more than the one before, and `beyond` after them. -/
def horner (g beyond : K) (xs : List K) : K := xs.foldr (fun x worth => x + g * worth) beyond

theorem hornerSum (g beyond : K) (xs : List K) :
    horner g beyond xs = discounted g (fun k => xs.getD k 0) xs.length + g ^ xs.length * beyond := by
  induction xs with
  | nil => simp [horner, discounted]
  | cons x rest ih =>
    rw [List.length_cons, discountedHead, List.getD_cons_zero]
    simp only [List.getD_cons_succ]
    have unfolded : horner g beyond (x :: rest) = x + g * horner g beyond rest := rfl
    rw [unfolded, ih]
    ring

end OmegaLb.Discounting
