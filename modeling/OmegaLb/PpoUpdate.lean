import OmegaLb.RolloutBuffer
import OmegaLb.SimEnv
import OmegaLb.Simplex
import Mathlib.Data.List.Range
import Mathlib.Data.List.Perm.Basic

/-! The epochs of PPOTrainer.update: every epoch shuffles the rows of the rollout once more and cuts them
into minibatches. What the optimizers make of a minibatch is a parameter. -/
namespace OmegaLb.PpoTraining
open SimEnv (RewardWeights)
open Simplex (OnSimplex)

structure PPOConfig where
  reward : RewardWeights
  gamma : ℚ
  lam : ℚ
  updateEpochs : Nat
  batchSize : Nat
  rolloutSteps : Nat
  totalSteps : Nat
  actionSmoothing : ℚ
  cbfLambda : ℚ
  capacityCap : ℚ

/-- With the lists that compute_gae does not read. -/
structure RolloutBuffer extends Ppo.RolloutBuffer ℚ where
  states : List (List ℚ)
  actions : List (List ℚ)
  logProbs : List ℚ

def RolloutBuffer.empty : RolloutBuffer := ⟨⟨[], [], []⟩, [], [], []⟩

/-- A row of the tensors that a minibatch picks from. -/
structure Sample where
  state : List ℚ
  action : List ℚ
  logProb : ℚ
  advantage : ℚ
  ret : ℚ

/-- `learn` is a step of both optimizers on a minibatch, which raises where Dirichlet does. -/
structure Networks (θ : Type) where
  actor : θ → List ℚ → List ℚ
  critic : θ → List ℚ → ℚ
  logProb : List ℚ → List ℚ → ℚ
  std : List ℚ → ℚ
  learn : List Sample → θ → Option θ

section Update
variable {θ : Type} (nets : Networks θ) (cfg : PPOConfig)

def normalised (advantages : List ℚ) : List ℚ :=
  let mean := advantages.sum / advantages.length
  advantages.map fun x => (x - mean) / (nets.std advantages + 1 / 10 ^ 8)

def RolloutBuffer.sample (b : RolloutBuffer) (advantages returns : List ℚ) (i : Nat) : Option Sample :=
  return ⟨← b.states[i]?, ← b.actions[i]?, ← b.logProbs[i]?, ← advantages[i]?, ← returns[i]?⟩

/-- `range(0, n, step)`, which raises for a step of 0 -/
def starts (n step : Nat) : Option (List Nat) :=
  if step = 0 then none else some ((List.range ((n + step - 1) / step)).map (· * step))

def minibatch (sample : Nat → Option Sample) (idx : List Nat) (params : θ) (start : Nat) : Option θ := do
  let batch ← ((idx.drop start).take cfg.batchSize).mapM sample
  nets.learn batch params

def epoch (sample : Nat → Option Sample) (idx : List Nat) (params : θ) : Option θ := do
  let from_ ← starts idx.length cfg.batchSize
  from_.foldlM (minibatch nets cfg sample idx) params

/-- The rows stay as the epoch before has left them. -/
def reshuffled (sample : Nat → Option Sample) (shuffles : Nat → List Nat → List Nat) (s : List Nat × θ) (k : Nat) :
    Option (List Nat × θ) := do
  let idx := shuffles k s.1
  let params ← epoch nets cfg sample idx s.2
  return (idx, params)

def epochs (sample : Nat → Option Sample) (shuffles : Nat → List Nat → List Nat) (n : Nat) (params : θ) : Option θ := do
  let (_, params) ← (List.range cfg.updateEpochs).foldlM (reshuffled nets cfg sample shuffles) (List.range n, params)
  return params

/-- np.random.shuffle -/
def Shuffles (shuffles : Nat → List Nat → List Nat) : Prop := ∀ k idx, (shuffles k idx).Perm idx

/-- A row of a rollout over n backends. -/
structure Sample.Fits (n : Nat) (x : Sample) : Prop where
  state : x.state.length = n * 8 + 4
  simplex : OnSimplex x.action
  action : x.action.length = n

/-- Dirichlet takes every distribution as a value, so that a minibatch of them goes through. -/
def Learns (n : Nat) (nets : Networks θ) : Prop :=
  ∀ batch params, batch ≠ [] → (∀ x ∈ batch, x.Fits n) → ∃ next, nets.learn batch params = some next

/-! ### The epochs go through -/

theorem foldlGoes {σ α : Type} {known : σ → Prop} {f : σ → α → Option σ} {xs : List α}
    (goes : ∀ s, ∀ x ∈ xs, known s → ∃ t, f s x = some t ∧ known t) {s : σ} (start : known s) :
    ∃ t, xs.foldlM f s = some t ∧ known t := by
  induction xs generalizing s with
  | nil => exact ⟨s, rfl, start⟩
  | cons x xs ih =>
    obtain ⟨t, did, next⟩ := goes s x List.mem_cons_self start
    rw [List.foldlM_cons, did]
    exact ih (fun s y inside => goes s y (List.mem_cons_of_mem x inside)) next

theorem batchGoes {n : Nat} {sample : Nat → Option Sample} {is : List Nat}
    (fits : ∀ i ∈ is, ∃ x, sample i = some x ∧ x.Fits n) :
    ∃ batch, is.mapM sample = some batch ∧ batch.length = is.length ∧ ∀ x ∈ batch, x.Fits n := by
  induction is with
  | nil => exact ⟨[], rfl, rfl, nofun⟩
  | cons i is ih =>
    obtain ⟨x, found, own⟩ := fits i List.mem_cons_self
    obtain ⟨batch, rest, length, all⟩ := ih fun j inside => fits j (List.mem_cons_of_mem i inside)
    refine ⟨x :: batch, ?_, congrArg (· + 1) length, List.forall_mem_cons.mpr ⟨own, all⟩⟩
    rw [List.mapM_cons, found, rest]
    rfl

theorem startsInside {n step : Nat} {from_ : List Nat} (listed : starts n step = some from_) {start : Nat}
    (inside : start ∈ from_) : start < n := by
  unfold starts at listed
  split at listed
  · cases listed
  · rename_i some_
    cases listed
    obtain ⟨k, before, rfl⟩ := List.mem_map.mp inside
    have whole : (k + 1) * step ≤ n + step - 1 :=
      (Nat.mul_le_mul_right step (List.mem_range.mp before)).trans (Nat.div_mul_le_self _ _)
    rw [Nat.succ_mul] at whole
    omega

theorem minibatchGoes {n : Nat} (learns : Learns n nets) (sized : 0 < cfg.batchSize) {sample : Nat → Option Sample}
    {idx : List Nat} (fits : ∀ i ∈ idx, ∃ x, sample i = some x ∧ x.Fits n) (params : θ) {start : Nat}
    (inside : start < idx.length) : ∃ next, minibatch nets cfg sample idx params start = some next := by
  obtain ⟨batch, picked, length, all⟩ := batchGoes fun i (at_ : i ∈ (idx.drop start).take cfg.batchSize) =>
    fits i (List.mem_of_mem_drop (List.mem_of_mem_take at_))
  have some_ : batch ≠ [] := by
    rintro rfl
    rw [List.length_nil, List.length_take, List.length_drop] at length
    omega
  obtain ⟨next, learnt⟩ := learns batch params some_ all
  exact ⟨next, by rw [minibatch, picked]; exact learnt⟩

theorem epochGoes {n : Nat} (learns : Learns n nets) (sized : 0 < cfg.batchSize) {sample : Nat → Option Sample}
    {idx : List Nat} (fits : ∀ i ∈ idx, ∃ x, sample i = some x ∧ x.Fits n) (params : θ) :
    ∃ next, epoch nets cfg sample idx params = some next := by
  obtain ⟨from_, listed⟩ : ∃ from_, starts idx.length cfg.batchSize = some from_ := ⟨_, if_neg sized.ne'⟩
  have goes : ∀ params, ∀ start ∈ from_, True →
      ∃ next, minibatch nets cfg sample idx params start = some next ∧ True := by
    intro params start at_ _
    obtain ⟨next, learnt⟩ := minibatchGoes nets cfg learns sized fits params (startsInside listed at_)
    exact ⟨next, learnt, trivial⟩
  obtain ⟨next, did, _⟩ := foldlGoes goes (s := params) trivial
  exact ⟨next, by rw [epoch, listed]; exact did⟩

theorem epochsGo {n m : Nat} (learns : Learns n nets) (sized : 0 < cfg.batchSize) {sample : Nat → Option Sample}
    (fits : ∀ i, i < m → ∃ x, sample i = some x ∧ x.Fits n) {shuffles : Nat → List Nat → List Nat}
    (shuffled : Shuffles shuffles) (params : θ) : ∃ next, epochs nets cfg sample shuffles m params = some next := by
  have goes : ∀ (s : List Nat × θ), ∀ k ∈ List.range cfg.updateEpochs, s.1.Perm (List.range m) →
      ∃ t, reshuffled nets cfg sample shuffles s k = some t ∧ t.1.Perm (List.range m) := by
    intro s k _ ordered
    have next := (shuffled k s.1).trans ordered
    obtain ⟨params, learnt⟩ := epochGoes nets cfg learns sized
      (fun i inside => fits i (List.mem_range.mp (next.mem_iff.mp inside))) s.2
    refine ⟨(shuffles k s.1, params), ?_, next⟩
    rw [reshuffled, learnt]
    rfl
  obtain ⟨last, did, _⟩ := foldlGoes goes (s := (List.range m, params)) (.refl _)
  rw [epochs, did]
  exact ⟨last.2, rfl⟩

end Update

end OmegaLb.PpoTraining
