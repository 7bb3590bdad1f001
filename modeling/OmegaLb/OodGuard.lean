import OmegaLb.RlAgent

/-! The detector that NewAgent makes has 64 coordinates, and no state of the collector has: with
n backends it has 8n + 4. So the agent's guard against unfamiliar states never fires, and its
statistics are never fed. -/
namespace OmegaLb.Rl
open CbfProjector (CBFProjector newCBFProjector)
open Metrics (Collector)
open RingManager (Runtime)

structure Reading where
  rt : Nat → Runtime
  snap : Collector ℚ

def Reading.state (r : Reading) : List ℚ := (collectState r.rt (some r.snap)).1

def OODDetector.offered [GoRoots ℚ] (o : OODDetector ℚ) (readings : List Reading) : OODDetector ℚ :=
  readings.foldl (fun o r => o.observe r.state) o

/-- A coordinate lies more than three standard deviations from its mean, and varies by at
least 1e-8: said of the squares, so that no root is taken. -/
def Deviates (o : OODDetector ℚ) (state : List ℚ) : Prop :=
  ∃ (k : Nat) (x mean m2 : ℚ), state[k]? = some x ∧ o.mean[k]? = some mean ∧
    o.m2[k]? = some m2 ∧ (1 / 10 ^ 8) ^ 2 ≤ o.variance m2 ∧ 9 * o.variance m2 < (x - mean) ^ 2

/-- With n backends, a state far from 30 familiar ones is flagged and takes weight off the
model. What is familiar is said by a detector of the length of the states. -/
def GuardLive [GoRoots ℚ] (n : Nat) : Prop :=
  ∀ (actionSmoothing : ℚ) (kan : Option (KANActor ℚ)) (cbf : CBFProjector ℚ)
    (readings : List Reading) (r : Reading),
    (∀ p ∈ readings, p.snap.keys.length = n) → r.snap.keys.length = n →
    30 ≤ ((newOODDetector (8 * n + 4) 3).offered readings).n →
    Deviates ((newOODDetector (8 * n + 4) 3).offered readings) r.state →
    let o := (newAgent actionSmoothing kan cbf).ood.offered readings
    o.isOOD r.state = true ∧ (0 < 1 - actionSmoothing →
      o.actionWeight (o.score r.state) (1 - actionSmoothing) < 1 - actionSmoothing)

/-! ### No state has the detector's length -/

theorem stateLength (r : Reading) : r.state.length ≠ 64 := by
  by_cases empty : r.snap.keys = []
  · have none_ : r.state = [] := by
      simp [Reading.state, collectState, empty]
    simp [none_]
  · rw [Reading.state, collectStateLength r.rt empty]
    omega

theorem offeredSame [GoRoots ℚ] {o : OODDetector ℚ} (wide : o.dim = 64) (readings : List Reading) :
    o.offered readings = o := by
  induction readings with
  | nil => rfl
  | cons r rest ih =>
    have skipped : o.observe r.state = o := observeOtherLength (wide ▸ stateLength r)
    rw [OODDetector.offered, List.foldl_cons, skipped]
    exact ih

theorem sampleCountZero [GoRoots ℚ] (actionSmoothing : ℚ) (kan : Option (KANActor ℚ))
    (cbf : CBFProjector ℚ) (readings : List Reading) :
    ((newAgent actionSmoothing kan cbf).ood.offered readings).sampleCount = 0 := by
  have same : (newAgent actionSmoothing kan cbf).ood.offered readings =
      (newAgent actionSmoothing kan cbf).ood := offeredSame rfl readings
  rw [same]
  rfl

theorem scoreZero [GoRoots ℚ] {o : OODDetector ℚ} (wide : o.dim = 64) (r : Reading) :
    o.score r.state = 0 := by
  rw [scoreOtherLength (wide ▸ stateLength r)]
  norm_num

theorem oodGuardInert [GoRoots ℚ] (actionSmoothing : ℚ) (kan : Option (KANActor ℚ))
    (cbf : CBFProjector ℚ) (readings : List Reading) (r : Reading) :
    let o := (newAgent actionSmoothing kan cbf).ood.offered readings
    o.isOOD r.state = false ∧
      o.actionWeight (o.score r.state) (1 - actionSmoothing) = 1 - actionSmoothing := by
  have same : (newAgent actionSmoothing kan cbf).ood.offered readings =
      (newAgent actionSmoothing kan cbf).ood := offeredSame rfl readings
  have zero := scoreZero (o := (newAgent actionSmoothing kan cbf).ood) rfl r
  have limit : (newAgent actionSmoothing kan cbf).ood.threshold = 3 := by
    norm_num [newAgent, newOODDetector]
  dsimp only
  rw [same, OODDetector.isOOD, OODDetector.actionWeight, zero, limit]
  norm_num

/-! ### A spike after thirty calm states -/

def calm (latency : ℚ) : Reading := ⟨fun _ => .plain, AList.insert 1 ⟨latency, 0, 1, []⟩ ∅⟩

def thirtyCalm : List Reading := (List.range 15).flatMap fun _ => [calm 1000, calm 3000]

theorem observeFew [GoRoots ℚ] {o : OODDetector ℚ} (few : o.n < 30) (limit : 0 < o.threshold)
    (state : List ℚ) : o.observe state = o.update state := by
  have zero : o.score state = 0 := by
    unfold OODDetector.score
    split <;> norm_num
  simp [OODDetector.observe, OODDetector.isOOD, zero, limit.le]

theorem offeredFew [GoRoots ℚ] {o : OODDetector ℚ} (limit : 0 < o.threshold)
    (readings : List Reading) (few : o.n + readings.length ≤ 30) :
    o.offered readings = readings.foldl (fun o r => o.update r.state) o := by
  induction readings generalizing o with
  | nil => rfl
  | cons r rest ih =>
    rw [List.length_cons] at few
    push_cast at few
    have counted : (o.update r.state).n ≤ o.n + 1 := by
      unfold OODDetector.update
      split
      · omega
      · exact le_refl _
    have kept : (o.update r.state).threshold = o.threshold := by
      unfold OODDetector.update
      split <;> rfl
    have first : o.observe r.state = o.update r.state := observeFew (by omega) limit r.state
    rw [OODDetector.offered, List.foldl_cons, List.foldl_cons, first]
    exact ih (kept ▸ limit) (by omega)

theorem spikeUnnoticed : ¬ ∃ _ : GoRoots ℚ, GuardLive 1 := by
  rintro ⟨roots, live⟩
  have familiar : (newOODDetector 12 3 : OODDetector ℚ).offered thirtyCalm =
      thirtyCalm.foldl (fun o r => o.update r.state) (newOODDetector 12 3) :=
    offeredFew (by decide +kernel) thirtyCalm (by decide +kernel)
  obtain ⟨flagged, _⟩ := live 0 none (newCBFProjector 0 0) thirtyCalm (calm 10000)
    (by decide +kernel) (by decide +kernel) (by rw [familiar]; decide +kernel) (by
      rw [familiar]
      refine ⟨0, 10, 2, 30, ?_, ?_, ?_, ?_, ?_⟩ <;> decide +kernel)
  have zero := scoreZero (o := (newAgent 0 none (newCBFProjector 0 0)).ood) rfl (calm 10000)
  rw [offeredSame rfl, OODDetector.isOOD, zero] at flagged
  revert flagged
  decide +kernel

end OmegaLb.Rl
