import OmegaLb.CbfRuntime
import OmegaLb.CbfSafety

/-! The projections of train_ppo_kan.py, for a batch of one row, beside those that serve: the scan of
each finds the same level, and the training loop takes the steps of cbf.go. -/
namespace OmegaLb.PpoProjection
open Simplex (OnSimplex Nearest clip mass)
open CbfRuntime (cumsum sortedDown rhoCandidates scanLevel projectSimplexClip)
open CbfProjector (CBFProjector CBFBackendState projectOntoSimplex newCBFProjector)

variable {K : Type} [Field K] [LinearOrder K]

def simplexProject (v : List K) : Option (List K) :=
  let u := sortedDown v
  let cssv := cumsum 0 u
  let rho := rhoCandidates u
  let rhoIdx := (rho.count true : Int) - 1
  -- gather takes no index outside of the row
  let gathered := if rhoIdx < 0 then none else cssv[rhoIdx.toNat]?
  gathered.map fun last =>
    let theta := (last - 1) / ((rhoIdx : K) + 1)
    v.map fun x => max (x - theta) 0

def barrier (cap : K) (loads w : List K) : List K := List.zipWith (fun load x => cap - (load + x)) loads w

def descentStep (lam cap lr : K) (raw loads w : List K) : List K :=
  let proximity := List.zipWith (fun x r => 2 * (x - r)) w raw
  let correction := (barrier cap loads w).map fun h => lam * min h 0
  List.zipWith (fun x d => x - lr * d) w (List.zipWith (· - ·) proximity correction)

def cbfLoop (lam cap lr : K) (raw loads : List K) : Nat → List K → Option (List K)
  | 0, w => some w
  | left + 1, w =>
    if (barrier cap loads w).any fun h => decide (h < 0) then
      (simplexProject (descentStep lam cap lr raw loads w)).bind (cbfLoop lam cap lr raw loads left)
    else some w

def cbfProject (weights loads : List K) (lam cap lr : K) (maxIter : Nat) : Option (List K) :=
  cbfLoop lam cap lr weights loads maxIter weights

/-! ### Three scans, one projection -/

variable [IsStrictOrderedRing K]

theorem simplexProjectClip {v : List K} (nonempty : v ≠ []) :
    ∃ theta, mass theta v = 1 ∧ simplexProject v = some (clip theta v) := by
  obtain ⟨rho, late, run, last, at_, one⟩ := scanLevel nonempty
  refine ⟨(last - 1) / ((rho : K) + 1), one, ?_⟩
  have count : ((List.replicate (rho + 1) true ++ List.replicate late false).count true : Int) - 1 = rho := by
    rw [List.count_append, List.count_replicate_self, List.count_replicate]
    simp
  unfold simplexProject
  dsimp only
  rw [run, count, if_neg (by omega), Int.toNat_natCast, at_, Int.cast_natCast]
  rfl

theorem runtimeProjects {v : List ℚ} (nonempty : v ≠ []) :
    CbfRuntime.projectSimplex v = projectOntoSimplex v := by
  obtain ⟨theta, one, same⟩ := projectSimplexClip nonempty
  rw [same, CbfProjector.projectClip, Simplex.levelUnique one (CbfProjector.thresholdMass nonempty)]

theorem trainingProjects {v : List ℚ} (nonempty : v ≠ []) : simplexProject v = some (projectOntoSimplex v) := by
  obtain ⟨theta, one, same⟩ := simplexProjectClip nonempty
  rw [same, CbfProjector.projectClip, Simplex.levelUnique one (CbfProjector.thresholdMass nonempty)]

theorem projectNearest {v : List ℚ} (nonempty : v ≠ []) : Nearest v (projectOntoSimplex v) := by
  rw [CbfProjector.projectClip]
  exact Simplex.clipNearest (CbfProjector.thresholdMass nonempty)

theorem projectSelf {v : List ℚ} (simplex : OnSimplex v) : projectOntoSimplex v = v := by
  have one := CbfProjector.thresholdMass (Simplex.simplexNonempty simplex)
  rw [CbfProjector.projectClip, Simplex.levelUnique one (Simplex.levelSelf simplex),
    Simplex.clipSelf simplex.nonneg]

/-- Every point of the simplex but the one returned is farther from `v`. -/
theorem projectionExact {v : List ℚ} (nonempty : v ≠ []) :
    Nearest v (projectOntoSimplex v) ∧ (∀ p, Nearest v p → p = projectOntoSimplex v) ∧
    projectOntoSimplex (projectOntoSimplex v) = projectOntoSimplex v ∧
    (OnSimplex v → projectOntoSimplex v = v) ∧
    CbfRuntime.projectSimplex v = projectOntoSimplex v ∧
    simplexProject v = some (projectOntoSimplex v) := by
  have nearest := projectNearest nonempty
  refine ⟨nearest, fun p other => ?_, projectSelf nearest.simplex, projectSelf, runtimeProjects nonempty,
    trainingProjects nonempty⟩
  by_contra differ
  have closer := nearest.nearer p other.simplex other.aligned differ
  have farther := other.nearer _ nearest.simplex nearest.aligned (Ne.symm differ)
  exact lt_asymm closer farther

theorem negativeEntryCut : ([3, -1] : List ℚ) ≠ [] ∧ projectOntoSimplex ([3, -1] : List ℚ) = [1, 0] ∧
    Nearest [3, -1] (projectOntoSimplex ([3, -1] : List ℚ)) :=
  ⟨by simp, by decide +kernel, (projectionExact (by simp)).1⟩

/-! ### Training and serving -/

theorem sameBarrier (c : CBFProjector ℚ) (backends : List (CBFBackendState ℚ)) (w : List ℚ) :
    ((barrier c.capPct (backends.map CBFBackendState.currentLoad) w).any fun h => decide (h < 0)) =
      c.violated backends w := by
  rw [barrier, List.zipWith_map_left, ← List.map_uncurry_zip_eq_zipWith, List.any_map]
  rfl

theorem sameStep (c : CBFProjector ℚ) {backends : List (CBFBackendState ℚ)} {raw w : List ℚ}
    (counted : backends.length = raw.length) (aligned : w.length = raw.length) :
    descentStep c.lambda c.capPct 0.05 raw (backends.map CBFBackendState.currentLoad) w =
      c.gradientStep raw backends w := by
  induction raw generalizing w backends with
  | nil =>
    cases List.length_eq_zero_iff.mp aligned
    simp [descentStep, CbfProjector.CBFProjector.gradientStep]
  | cons r raw ih =>
    obtain ⟨x, w, rfl⟩ := List.exists_cons_of_length_eq_add_one aligned
    obtain ⟨b, backends, rfl⟩ := List.exists_cons_of_length_eq_add_one counted
    have excess : min (c.capPct - (b.currentLoad + x)) 0 = -max (b.currentLoad + x - c.capPct) 0 := by
      rcases le_total (b.currentLoad + x) c.capPct with within | beyond
      · rw [min_eq_right (by linarith), max_eq_right (by linarith), neg_zero]
      · rw [min_eq_left (by linarith), max_eq_left (by linarith), neg_sub]
    have head : x - 0.05 * (2 * (x - r) - c.lambda * min (c.capPct - (b.currentLoad + x)) 0) =
        x - GoFloat.lit 0.05 * c.gradient b x r := by
      rw [CbfProjector.gradientPenalty, excess, ratLit]
      ring
    have tail := ih (Nat.succ.inj counted) (Nat.succ.inj aligned)
    exact congrArg₂ List.cons head tail

theorem sameLoop (c : CBFProjector ℚ) {backends : List (CBFBackendState ℚ)} {raw : List ℚ}
    (counted : backends.length = raw.length) (nonempty : raw ≠ []) (left : Nat) {w : List ℚ}
    (aligned : w.length = raw.length) :
    cbfLoop c.lambda c.capPct 0.05 raw (backends.map CBFBackendState.currentLoad) left w =
      some (c.descend raw backends left w) := by
  induction left generalizing w with
  | zero => rfl
  | succ left ih =>
    rw [cbfLoop, sameBarrier, CbfProjector.CBFProjector.descend]
    split
    · have length := CbfProjector.gradientStepLength c counted aligned
      have some_ : c.gradientStep raw backends w ≠ [] := fun empty => nonempty (by
        rw [empty] at length
        exact List.length_eq_zero_iff.mp length.symm)
      rw [sameStep c counted aligned, trainingProjects some_, Option.bind_some]
      exact ih ((CbfProjector.projectLength _).trans length)
    · rfl

/-- The layer that the policy was trained behind is the one that it is served behind. -/
theorem trainedAsServed {lambda cap : ℚ} (strong : 0 < lambda) (low : 0 < cap) (high : cap ≤ 1)
    {weights : List ℚ} (simplex : OnSimplex weights) (state : List ℚ) {backends : List (CBFBackendState ℚ)}
    (counted : backends.length = weights.length) :
    let served := (newCBFProjector lambda cap).project weights state backends
    served.2.2 = none ∧
      cbfProject weights (backends.map CBFBackendState.currentLoad) lambda cap 0.05 200 = some served.2.1 := by
  have nonempty := Simplex.simplexNonempty simplex
  have strength : (newCBFProjector lambda cap).lambda = lambda := by simp [newCBFProjector, not_le.mpr strong]
  have bound : (newCBFProjector lambda cap).capPct = cap := by
    simp [newCBFProjector, not_le.mpr low, not_lt.mpr high]
  have loop := sameLoop (newCBFProjector lambda cap) counted nonempty 200 rfl
  rw [strength, bound] at loop
  dsimp only
  rw [CbfProjector.projectDescends _ state counted nonempty, projectSelf simplex]
  exact ⟨rfl, loop⟩

def loadedPair : List (CBFBackendState ℚ) := [⟨1, 1 / 2⟩, ⟨2, 0⟩]

theorem pairTrainedAsServed :
    cbfProject [9 / 10, 1 / 10] (loadedPair.map CBFBackendState.currentLoad) (1 / 2) (4 / 5) 0.05 200 =
      some ((newCBFProjector (1 / 2) (4 / 5) : CBFProjector ℚ).project [9 / 10, 1 / 10] [] loadedPair).2.1 := by
  have simplex : OnSimplex ([9 / 10, 1 / 10] : List ℚ) := ⟨by decide +kernel, by decide +kernel⟩
  have strong : (0 : ℚ) < 1 / 2 := by norm_num
  have low : (0 : ℚ) < 4 / 5 := by norm_num
  have high : (4 / 5 : ℚ) ≤ 1 := by norm_num
  have counted : loadedPair.length = ([9 / 10, 1 / 10] : List ℚ).length := rfl
  exact (trainedAsServed strong low high simplex [] counted).2

end OmegaLb.PpoProjection
