import OmegaLb.CbfShedding

/-! When a projection is said to have converged. The caps and the loads stay as they are through the
rounds, so a violated constraint stays violated, and only a short step can say otherwise. -/
namespace OmegaLb.CbfRuntime
open Simplex (OnSimplex clip mass push)

variable {K : Type} [Field K] [LinearOrder K]

/-- The weights pushed `k` times as far as one round pushes them, projected once. -/
def CBFProjector.pushed (p : CBFProjector K) (h weights : List K) (k : Nat) : List K :=
  projectSimplex (push (k * p.lr) (p.grad h) (startWeights weights))

def Safe (h : List K) : Prop := ∀ x ∈ h, 0 ≤ x

instance (h : List K) : Decidable (Safe h) := inferInstanceAs (Decidable (∀ x ∈ h, 0 ≤ x))

/-! ### The three exits -/

theorem anyViolation {h : List K} : (h.map fun x => decide (x < 0)).any id = true ↔ ¬ Safe h := by
  simp [Safe]

theorem loopSafe (p : CBFProjector K) {h : List K} (safe : Safe h) (left iters : Nat) (w : List K)
    (fired : List Bool) : (p.loop h (left + 1) iters w fired).converged = true := by
  rw [CBFProjector.loop]
  dsimp only
  rw [if_neg fun any_ => anyViolation.mp any_ safe]

/-- With a constraint violated, the loop ends before its budget only where a round moves no weight far. -/
theorem loopViolated (p : CBFProjector K) {h : List K} (violated : ¬ Safe h) (left iters : Nat) (w : List K)
    (fired : List Bool) : (p.loop h left iters w fired).converged = true ↔
      ∃ k < left, widest ((p.move h)^[k + 1] w) ((p.move h)^[k] w) < p.tol := by
  induction left generalizing iters w fired with
  | zero => simp [CBFProjector.loop]
  | succ left ih =>
    rw [CBFProjector.loop]
    dsimp only
    rw [if_pos (anyViolation.mpr violated)]
    split
    · rename_i short
      exact iff_of_true rfl ⟨0, Nat.succ_pos left, short⟩
    · rename_i far
      rw [ih]
      constructor
      · rintro ⟨k, below, short⟩
        exact ⟨k + 1, Nat.succ_lt_succ below, short⟩
      · rintro ⟨k, below, short⟩
        cases k with
        | zero => exact absurd short far
        | succ k => exact ⟨k, Nat.lt_of_succ_lt_succ below, short⟩

/-! ### Many rounds, one push -/

variable [IsStrictOrderedRing K]

theorem movesPushed (p : CBFProjector K) {h weights : List K} (nonempty : weights ≠ [])
    (aligned : h.length = weights.length) (k : Nat) :
    (p.move h)^[k] (startWeights weights) = p.pushed h weights k := by
  have simplex : OnSimplex (startWeights weights) := startSimplex nonempty
  have length : (p.grad h).length = (startWeights weights).length := by
    rw [CBFProjector.grad, List.length_map, startLength, aligned]
  have some_ (t : K) : push t (p.grad h) (startWeights weights) ≠ [] :=
    Simplex.pushNonempty length (Simplex.simplexNonempty simplex)
  induction k with
  | zero =>
    obtain ⟨level, one, same⟩ := projectSimplexClip (some_ 0)
    rw [Simplex.pushNone length] at one same
    rw [CBFProjector.pushed, Nat.cast_zero, zero_mul, Simplex.pushNone length, same,
      Simplex.levelUnique one (Simplex.levelSelf simplex), Simplex.clipSelf simplex.nonneg]
    rfl
  | succ k ih =>
    obtain ⟨low, one, same⟩ := projectSimplexClip (some_ (k * p.lr))
    obtain ⟨high, more, last⟩ := projectSimplexClip (some_ ((k + 1 : Nat) * p.lr))
    have again := Simplex.driftAgain k length simplex one more
    have next : p.move h (p.pushed h weights k) =
        projectSimplex (push p.lr (p.grad h) (clip low (push (k * p.lr) (p.grad h) (startWeights weights)))) := by
      rw [CBFProjector.pushed, same]
      rfl
    have still : (p.grad h).length = (clip low (push (k * p.lr) (p.grad h) (startWeights weights))).length := by
      rw [Simplex.clipLength, Simplex.pushLength length, length]
    have full := Simplex.pushNonempty (t := p.lr) still (Simplex.simplexNonempty (Simplex.clipOnSimplex one))
    obtain ⟨theta, total, result⟩ := projectSimplexClip full
    have level : theta = high - low := by
      refine Simplex.levelUnique total ?_
      rw [mass, again]
      exact more
    rw [Function.iterate_succ_apply', ih, next, result, level, again, CBFProjector.pushed, last]

theorem convergedExact (p : CBFProjector K) {weights loads : List K} (caps : Option (List K))
    (counted : loads.length = weights.length)
    (capped : (p.limits weights.length caps).length = weights.length) (budget : 1 ≤ p.maxIter) :
    let h := barrier (p.limits weights.length caps) loads
    (((p.projectFull weights loads caps).converged = true ↔ Safe h) ↔
      Safe h ∨ ∀ k < p.maxIter.toNat,
        p.tol ≤ widest (p.pushed h weights (k + 1)) (p.pushed h weights k)) := by
  intro h
  have length : h.length = weights.length := by simp [h, barrier, counted, capped]
  have loop : p.projectFull weights loads caps =
      p.loop h p.maxIter.toNat 0 (startWeights weights) (List.replicate weights.length false) := rfl
  rw [loop]
  by_cases safe : Safe h
  · obtain ⟨left, rounds⟩ : ∃ left, p.maxIter.toNat = left + 1 := Nat.exists_eq_succ_of_ne_zero (by omega)
    rw [rounds]
    exact iff_of_true (iff_of_true (loopSafe p safe left 0 _ _) safe) (.inl safe)
  · have nonempty : weights ≠ [] := by
      rintro rfl
      rw [List.length_nil, List.length_eq_zero_iff] at length
      exact safe (by simp [Safe, length])
    rw [loopViolated p safe]
    simp only [movesPushed p nonempty length, safe, iff_false, false_or, not_exists, not_and, not_lt]

/-- The only backend is over its cap and keeps all the weight. -/
theorem aloneConverges : ¬ (((CBFProjector.init : CBFProjector ℚ).projectFull [1] [9 / 10] none).converged = true ↔
    Safe (barrier ((CBFProjector.init : CBFProjector ℚ).limits 1 none) [9 / 10])) := by
  decide +kernel

theorem pairConverges :
    let p : CBFProjector ℚ := CBFProjector.init
    let h := barrier (p.limits 2 none) [9 / 10, 1 / 10]
    ((p.projectFull [1, 1] [9 / 10, 1 / 10] none).converged = true ↔ Safe h) ↔
      Safe h ∨ ∀ k < p.maxIter.toNat, p.tol ≤ widest (p.pushed h [1, 1] (k + 1)) (p.pushed h [1, 1] k) :=
  convergedExact CBFProjector.init none rfl rfl (by decide +kernel)

end OmegaLb.CbfRuntime
