import Mathlib.Data.List.Forall2
import OmegaLb.CbfProjector

/-! What the safety projection guarantees, over the rationals. The descent pulls back toward
the raw weights, so for every lambda up to 18 a coordinate that the projected raw weights put
above its capacity stays above it in every iterate. -/
namespace OmegaLb.CbfProjector
open Simplex (OnSimplex clip mass)

def Meets (capPct : ℚ) (backends : List (CBFBackendState ℚ)) (w : List ℚ) : Prop :=
  List.Forall₂ (fun b x => b.currentLoad + x ≤ capPct) backends w

def Feasible (capPct : ℚ) (backends : List (CBFBackendState ℚ)) : Prop :=
  ∃ v, OnSimplex v ∧ Meets capPct backends v

def Safe (capPct : ℚ) (backends : List (CBFBackendState ℚ))
    (out : CBFProjector ℚ × List ℚ × Option (CBFError ℚ)) : Prop :=
  out.2.2 = none → OnSimplex out.2.1 ∧ Meets capPct backends out.2.1

def Over (capPct : ℚ) (backends : List (CBFBackendState ℚ)) (w : List ℚ) (i : Nat) : Prop :=
  ∃ b x, backends[i]? = some b ∧ w[i]? = some x ∧ capPct < b.currentLoad + x

def CBFProjector.move (c : CBFProjector ℚ) (rawW : List ℚ) (backends : List (CBFBackendState ℚ))
    (w : List ℚ) : List ℚ :=
  projectOntoSimplex (c.gradientStep rawW backends w)

/-! ### The loop -/

theorem violatedExact (c : CBFProjector ℚ) {backends : List (CBFBackendState ℚ)} {w : List ℚ}
    (counted : backends.length = w.length) :
    c.violated backends w = false ↔ Meets c.capPct backends w := by
  rw [Meets, List.forall₂_iff_zip, CBFProjector.violated, List.any_eq_false]
  constructor
  · intro within
    refine ⟨counted, fun {b x} member => ?_⟩
    have fits := within (b, x) member
    simpa [CBFProjector.slack] using fits
  · rintro ⟨_, within⟩ ⟨b, x⟩ member
    simpa [CBFProjector.slack] using within member

theorem gradientStepLength (c : CBFProjector ℚ) {rawW w : List ℚ}
    {backends : List (CBFBackendState ℚ)} (counted : backends.length = rawW.length)
    (aligned : w.length = rawW.length) :
    (c.gradientStep rawW backends w).length = rawW.length := by
  simp [CBFProjector.gradientStep, counted, aligned]

structure Iterate (rawW w : List ℚ) : Prop where
  aligned : w.length = rawW.length
  simplex : OnSimplex w

theorem startIterate {rawW : List ℚ} (nonempty : rawW ≠ []) :
    Iterate rawW (projectOntoSimplex rawW) :=
  ⟨projectLength rawW, projectOnSimplex nonempty⟩

theorem moveIterate (c : CBFProjector ℚ) {rawW w : List ℚ} {backends : List (CBFBackendState ℚ)}
    (counted : backends.length = rawW.length) (nonempty : rawW ≠ []) (iterate : Iterate rawW w) :
    Iterate rawW (c.move rawW backends w) := by
  have length := gradientStepLength c counted iterate.aligned
  refine ⟨(projectLength _).trans length, projectOnSimplex fun empty => nonempty ?_⟩
  rw [empty] at length
  exact List.length_eq_zero_iff.mp length.symm

theorem descendIterate (c : CBFProjector ℚ) {rawW w : List ℚ} {backends : List (CBFBackendState ℚ)}
    (counted : backends.length = rawW.length) (nonempty : rawW ≠ []) (fuel : Nat)
    (iterate : Iterate rawW w) : Iterate rawW (c.descend rawW backends fuel w) := by
  induction fuel generalizing w with
  | zero => exact iterate
  | succ fuel ih =>
    rw [CBFProjector.descend]
    split
    · exact ih (moveIterate c counted nonempty iterate)
    · exact iterate

theorem descendMeets (c : CBFProjector ℚ) {rawW w : List ℚ} {backends : List (CBFBackendState ℚ)}
    (counted : backends.length = rawW.length) (nonempty : rawW ≠ []) (fuel : Nat)
    (iterate : Iterate rawW w) :
    Meets c.capPct backends (c.descend rawW backends fuel w) ↔
      ∃ k ≤ fuel, Meets c.capPct backends ((c.move rawW backends)^[k] w) := by
  induction fuel generalizing w with
  | zero => simp [CBFProjector.descend]
  | succ fuel ih =>
    have exact_ := violatedExact c (counted.trans iterate.aligned.symm)
    rw [CBFProjector.descend]
    split
    · rename_i beyond
      have first : ¬ Meets c.capPct backends w := fun met => by
        rw [exact_.mpr met] at beyond
        contradiction
      rw [← CBFProjector.move, ih (moveIterate c counted nonempty iterate)]
      constructor
      · rintro ⟨k, few, met⟩
        exact ⟨k + 1, Nat.succ_le_succ few, met⟩
      · rintro ⟨k, few, met⟩
        cases k with
        | zero => exact absurd met first
        | succ k => exact ⟨k, Nat.le_of_succ_le_succ few, met⟩
    · rename_i within
      have met := exact_.mp (Bool.not_eq_true _ ▸ within)
      exact ⟨fun _ => ⟨0, Nat.zero_le _, met⟩, fun _ => met⟩

/-! ### One step of the descent -/

theorem gradientPenalty (c : CBFProjector ℚ) (b : CBFBackendState ℚ) (x r : ℚ) :
    c.gradient b x r = c.lambda * max (b.currentLoad + x - c.capPct) 0 + 2 * (x - r) := by
  have flip : c.capPct - (b.currentLoad + x) = -(b.currentLoad + x - c.capPct) := by ring
  simp only [CBFProjector.gradient, CBFProjector.slack, ratGt, ratLit, flip]
  by_cases beyond : 0 < b.currentLoad + x - c.capPct
  · rw [max_eq_left beyond.le]
    simp only [neg_lt_zero, beyond, decide_true, if_true]
    norm_num
    ring
  · rw [max_eq_right (not_lt.mp beyond)]
    simp only [neg_lt_zero, beyond, decide_false]
    norm_num

theorem massStepOne (c : CBFProjector ℚ) (positive : 0 ≤ c.lambda) (b : CBFBackendState ℚ)
    {x : ℚ} (nonneg : 0 ≤ x) (r theta : ℚ) :
    max (x - GoFloat.lit 0.05 * c.gradient b x r - theta / 10) 0 ≤
      9 / 10 * x + 1 / 10 * max (r - theta) 0 := by
  have penalty : 0 ≤ c.lambda * max (b.currentLoad + x - c.capPct) 0 :=
    mul_nonneg positive (le_max_right _ _)
  have left := le_max_left (r - theta) 0
  have right := le_max_right (r - theta) 0
  rw [gradientPenalty, ratLit]
  apply max_le <;> linarith

theorem massStep (c : CBFProjector ℚ) (positive : 0 ≤ c.lambda) (theta : ℚ) {rawW w : List ℚ}
    {backends : List (CBFBackendState ℚ)} (counted : backends.length = rawW.length)
    (aligned : w.length = rawW.length) (nonneg : ∀ x ∈ w, 0 ≤ x) :
    mass (theta / 10) (c.gradientStep rawW backends w) ≤
      9 / 10 * w.sum + 1 / 10 * mass theta rawW := by
  induction rawW generalizing w backends with
  | nil =>
    cases List.length_eq_zero_iff.mp aligned
    simp [CBFProjector.gradientStep]
  | cons r rawW ih =>
    obtain ⟨x, w, rfl⟩ := List.exists_cons_of_length_eq_add_one aligned
    obtain ⟨b, backends, rfl⟩ := List.exists_cons_of_length_eq_add_one counted
    obtain ⟨first, rest⟩ := List.forall_mem_cons.mp nonneg
    have head := massStepOne c positive b first r theta
    have tail := ih (Nat.succ.inj counted) (Nat.succ.inj aligned) rest
    have split : c.gradientStep (r :: rawW) (b :: backends) (x :: w) =
        (x - GoFloat.lit 0.05 * c.gradient b x r) :: c.gradientStep rawW backends w := rfl
    rw [split, Simplex.massCons, Simplex.massCons, List.sum_cons]
    linarith

theorem stepLevel (c : CBFProjector ℚ) (positive : 0 ≤ c.lambda) {rawW w : List ℚ}
    {backends : List (CBFBackendState ℚ)} (counted : backends.length = rawW.length)
    (nonempty : rawW ≠ []) (iterate : Iterate rawW w) :
    threshold (c.gradientStep rawW backends w) ≤ threshold rawW / 10 := by
  have length := gradientStepLength c counted iterate.aligned
  have some_ : c.gradientStep rawW backends w ≠ [] := fun empty => nonempty (by
    rw [empty] at length
    exact List.length_eq_zero_iff.mp length.symm)
  apply Simplex.levelBound (thresholdMass some_)
  have most := massStep c positive (threshold rawW) counted iterate.aligned iterate.simplex.nonneg
  rw [iterate.simplex.total, thresholdMass nonempty] at most
  linarith

theorem moveAt (c : CBFProjector ℚ) {rawW w : List ℚ} {backends : List (CBFBackendState ℚ)}
    {i : Nat} {b : CBFBackendState ℚ} {x r : ℚ} (atB : backends[i]? = some b)
    (atX : w[i]? = some x) (atR : rawW[i]? = some r) :
    (c.move rawW backends w)[i]? = some (max (x - GoFloat.lit 0.05 * c.gradient b x r -
      threshold (c.gradientStep rawW backends w)) 0) := by
  have row : (backends.zip (w.zip rawW))[i]? = some (b, x, r) :=
    List.getElem?_zip_eq_some.mpr ⟨atB, List.getElem?_zip_eq_some.mpr ⟨atX, atR⟩⟩
  have stepped : (c.gradientStep rawW backends w)[i]? =
      some (x - GoFloat.lit 0.05 * c.gradient b x r) := by
    rw [CBFProjector.gradientStep, List.getElem?_map, row]
    rfl
  rw [CBFProjector.move, projectClip, clip, List.getElem?_map, stepped, Option.map_some]

/-- An overloaded coordinate of the projected raw weights that is still overloaded in an
iterate is overloaded in the next. -/
theorem moveOver (c : CBFProjector ℚ) (positive : 0 ≤ c.lambda) (mild : c.lambda ≤ 18)
    {rawW w : List ℚ} {backends : List (CBFBackendState ℚ)}
    (counted : backends.length = rawW.length) (nonempty : rawW ≠ [])
    (room : ∀ b ∈ backends, b.currentLoad ≤ c.capPct) {i : Nat}
    (start : Over c.capPct backends (projectOntoSimplex rawW) i) (iterate : Iterate rawW w)
    (beyond : Over c.capPct backends w i) : Over c.capPct backends (c.move rawW backends w) i := by
  obtain ⟨b, p, atB, atP, above⟩ := start
  obtain ⟨_, x, atB', atX, still⟩ := beyond
  cases Option.some.inj (atB.symm.trans atB')
  rw [projectClip, clip, List.getElem?_map, Option.map_eq_some_iff] at atP
  obtain ⟨r, atR, rfl⟩ := atP
  have level := stepLevel c positive counted nonempty iterate
  have fits := room b (List.mem_of_getElem? atB)
  have raised : threshold rawW < r := by
    by_contra low
    rw [max_eq_right (by linarith)] at above
    linarith
  rw [max_eq_left (by linarith)] at above
  refine ⟨b, _, atB, moveAt c atB atX atR, lt_of_lt_of_le ?_ (add_le_add_right (le_max_left _ 0) _)⟩
  rw [gradientPenalty, ratLit, max_eq_left (by linarith)]
  nlinarith

/-! ### Project -/

theorem feasibleRoom {capPct : ℚ} {backends : List (CBFBackendState ℚ)}
    (feasible : Feasible capPct backends) : ∀ b ∈ backends, b.currentLoad ≤ capPct := by
  obtain ⟨v, simplex, met⟩ := feasible
  have nonneg := simplex.nonneg
  clear simplex
  induction met with
  | nil => exact fun _ member => absurd member List.not_mem_nil
  | cons fits _ ih =>
    obtain ⟨first, rest⟩ := List.forall_mem_cons.mp nonneg
    exact List.forall_mem_cons.mpr ⟨by linarith, ih rest⟩

theorem notMeetsOver {capPct : ℚ} {backends : List (CBFBackendState ℚ)} {w : List ℚ}
    (aligned : backends.length = w.length) :
    ¬ Meets capPct backends w ↔ ∃ i, Over capPct backends w i := by
  rw [Meets, List.forall₂_iff_zip]
  constructor
  · intro unmet
    by_contra none_
    refine unmet ⟨aligned, fun {b x} member => ?_⟩
    by_contra above
    obtain ⟨i, at_⟩ := List.mem_iff_getElem?.mp member
    obtain ⟨atB, atX⟩ := List.getElem?_zip_eq_some.mp at_
    exact none_ ⟨i, b, x, atB, atX, not_le.mp above⟩
  · rintro ⟨i, b, x, atB, atX, above⟩ ⟨_, within⟩
    have at_ : (backends.zip w)[i]? = some (b, x) := List.getElem?_zip_eq_some.mpr ⟨atB, atX⟩
    exact absurd (within (List.mem_of_getElem? at_)) (not_le.mpr above)

theorem unsafeStays (c : CBFProjector ℚ) (positive : 0 ≤ c.lambda) (mild : c.lambda ≤ 18)
    {rawW : List ℚ} {backends : List (CBFBackendState ℚ)}
    (counted : backends.length = rawW.length) (nonempty : rawW ≠ [])
    (room : ∀ b ∈ backends, b.currentLoad ≤ c.capPct)
    (start : ¬ Meets c.capPct backends (projectOntoSimplex rawW)) (k : Nat) :
    ¬ Meets c.capPct backends ((c.move rawW backends)^[k] (projectOntoSimplex rawW)) := by
  have first := startIterate nonempty
  obtain ⟨i, beyond⟩ := (notMeetsOver (counted.trans first.aligned.symm)).mp start
  have stays : Iterate rawW ((c.move rawW backends)^[k] (projectOntoSimplex rawW)) ∧
      Over c.capPct backends ((c.move rawW backends)^[k] (projectOntoSimplex rawW)) i := by
    induction k with
    | zero => exact ⟨first, beyond⟩
    | succ k ih =>
      rw [Function.iterate_succ_apply']
      exact ⟨moveIterate c counted nonempty ih.1,
        moveOver c positive mild counted nonempty room beyond ih.1 ih.2⟩
  exact (notMeetsOver (counted.trans stays.1.aligned.symm)).mpr ⟨i, stays.2⟩

theorem safeMeets (c : CBFProjector ℚ) {rawW : List ℚ} (state : List ℚ)
    {backends : List (CBFBackendState ℚ)} (counted : backends.length = rawW.length)
    (nonempty : rawW ≠ []) : Safe c.capPct backends (c.project rawW state backends) ↔
      ∃ k ≤ maxIter,
        Meets c.capPct backends ((c.move rawW backends)^[k] (projectOntoSimplex rawW)) := by
  have last := descendIterate c counted nonempty maxIter (startIterate nonempty)
  rw [Safe, projectDescends c state counted nonempty,
    ← descendMeets c counted nonempty maxIter (startIterate nonempty)]
  exact ⟨fun safe => (safe rfl).2, fun met _ => ⟨last.simplex, met⟩⟩

/-- The vector that is returned is safe when the raw weights, projected onto the simplex,
already are, and up to lambda = 18 in no other case. -/
theorem projectSafeExact (c : CBFProjector ℚ) (rawW state : List ℚ)
    (backends : List (CBFBackendState ℚ)) (positive : 0 < c.lambda) (nonempty : rawW ≠ [])
    (counted : backends.length = rawW.length) (feasible : Feasible c.capPct backends) :
    (Meets c.capPct backends (projectOntoSimplex rawW) →
        Safe c.capPct backends (c.project rawW state backends)) ∧
      (c.lambda ≤ 18 → Safe c.capPct backends (c.project rawW state backends) →
        Meets c.capPct backends (projectOntoSimplex rawW)) := by
  rw [safeMeets c state counted nonempty]
  constructor
  · exact fun start => ⟨0, Nat.zero_le _, start⟩
  · rintro mild ⟨k, _, met⟩
    by_contra start
    exact unsafeStays c positive.le mild counted nonempty (feasibleRoom feasible) start k met

def defaultProjector : CBFProjector ℚ := newCBFProjector 0 0

def idlePair : List (CBFBackendState ℚ) := [⟨1, 0⟩, ⟨2, 0⟩]

theorem idlePairFeasible : Feasible defaultProjector.capPct idlePair := by
  refine ⟨[1 / 2, 1 / 2], ⟨?_, ?_⟩, .cons ?_ (.cons ?_ .nil)⟩ <;> decide +kernel

theorem evenSplitSafe : Safe defaultProjector.capPct idlePair
    (defaultProjector.project [1 / 2, 1 / 2] [] idlePair) := by
  refine (projectSafeExact defaultProjector _ _ idlePair (by decide +kernel) (by simp) rfl
    idlePairFeasible).1 ?_
  have even : projectOntoSimplex [1 / 2, 1 / 2] = ([1 / 2, 1 / 2] : List ℚ) := by decide +kernel
  rw [even]
  exact .cons (by decide +kernel) (.cons (by decide +kernel) .nil)

/-- At lambda = 40 one step overshoots from an unsafe vector to a safe one. -/
example : (newCBFProjector 40 0 : CBFProjector ℚ).violated idlePair [1, 0] = true ∧
    ((newCBFProjector 40 0 : CBFProjector ℚ).project [1, 0] [] idlePair).2.1 = [4 / 5, 1 / 5] := by
  decide +kernel

/-- All the weight is asked for one of two idle backends, and at lambda = 1/2 it is still
more than the cap of 4/5 after 200 steps. -/
theorem oneSidedStaysOver : Feasible defaultProjector.capPct idlePair ∧
    ¬ Safe defaultProjector.capPct idlePair (defaultProjector.project [1, 0] [] idlePair) := by
  refine ⟨idlePairFeasible, fun safe => ?_⟩
  obtain ⟨k, _, met⟩ := (safeMeets defaultProjector [] rfl (by simp)).mp safe
  refine unsafeStays defaultProjector (by decide +kernel) (by decide +kernel) rfl (by simp)
    (feasibleRoom idlePairFeasible) (fun start => ?_) k met
  have unchanged : projectOntoSimplex [1, 0] = ([1, 0] : List ℚ) := by decide +kernel
  rw [unchanged] at start
  cases start with
  | cons fits _ => exact absurd fits (by decide +kernel)

end OmegaLb.CbfProjector
