import OmegaLb.PpoProjection
import OmegaLb.PpoUpdate
import OmegaLb.StateLayout

/-! train of train_ppo_kan.py over exact rationals: the rollouts, the layer that stands between the policy
and the environment, and the update that empties the buffer. The networks and what the optimizers
make of them are parameters, and so is what Dirichlet draws. -/
namespace OmegaLb.PpoTraining
open PpoProjection (cbfProject)
open SimEnv (TrainEnv Waves)
open Simplex (OnSimplex)
open StepRun (Does Guarded Run)

/-- What the generators give: an action for the concentrations, the noise of a step, the draws of a reset. -/
structure Draw (n : Nat) where
  sample : List ℚ → List ℚ
  noise : ℚ
  reset : Fin n → ℚ

/-! ### The policy -/

def smoothed (alpha : ℚ) (prevWeights : Option (List ℚ)) (weights : List ℚ) : List ℚ :=
  match prevWeights with
  | none => weights
  | some prev =>
    let mixed := List.zipWith (fun x y => alpha * x + (1 - alpha) * y) weights prev
    mixed.map fun x => x / mixed.sum

def concentrations (weights : List ℚ) : List ℚ := weights.map fun x => x * 10 + 1 / 10 ^ 6

structure Selected where
  prevWeights : List ℚ
  action : List ℚ
  logProb : ℚ
  value : ℚ

section Training
variable {θ : Type} {n : Nat} [NeZero n] (nets : Networks θ) (cfg : PPOConfig) (w : Waves)

/-- Dirichlet takes no concentration that is not positive. -/
def selectAction (params : θ) (prevWeights : Option (List ℚ)) (state : List ℚ) (draw : Draw n) : Option Selected :=
  let weights := smoothed cfg.actionSmoothing prevWeights (nets.actor params state)
  let action := draw.sample (concentrations weights)
  if (concentrations weights).all fun x => decide (0 < x) then
    some ⟨weights, action, nets.logProb (concentrations weights) action, nets.critic params state⟩
  else none

/-- `state[: num_backends * 8 : 8]` -/
def loadsOf (n : Nat) (state : List ℚ) : List ℚ := (List.range n).map fun i => state.getD (i * 8) 0

/-! ### The loop -/

structure Session (θ : Type) (n : Nat) where
  params : θ
  prevWeights : Option (List ℚ)
  env : TrainEnv n
  state : List ℚ
  totalSteps : Nat
  episode : Nat
  buffer : RolloutBuffer

def RolloutBuffer.push (b : RolloutBuffer) (state : List ℚ) (chosen : Selected) (safe : List ℚ) (reward : ℚ) (done : Bool) :
    RolloutBuffer where
  rewards := b.rewards ++ [reward]
  values := b.values ++ [chosen.value]
  dones := b.dones ++ [if done then 1 else 0]
  states := b.states ++ [state]
  actions := b.actions ++ [safe]
  logProbs := b.logProbs ++ [chosen.logProb]

def Session.follow (s : Session θ n) (draw : Draw n) (chosen : Selected) (safe : List ℚ) : Session θ n :=
  let (env, nextState, reward, done) := s.env.step cfg.reward w (fun i => safe.getD i 0) draw.noise
  let after : Session θ n := { s with
    prevWeights := some chosen.prevWeights
    env := env
    state := nextState
    totalSteps := s.totalSteps + 1
    buffer := s.buffer.push s.state chosen safe reward done }
  if done then
    let (env, state) := env.reset w draw.reset
    { after with env := env, state := state, episode := s.episode + 1 }
  else after

/-- One round of the inner loop. -/
def Session.collect (s : Session θ n) (draw : Draw n) : Option (Session θ n) := do
  let chosen ← selectAction nets cfg s.params s.prevWeights s.state draw
  let safe ← cbfProject chosen.action (loadsOf n s.state) cfg.cbfLambda cfg.capacityCap 0.05 200
  return s.follow cfg w draw chosen safe

def Session.update (s : Session θ n) (shuffles : Nat → List Nat → List Nat) : Option (Session θ n) := do
  let (advantages, returns) ← s.buffer.computeGae cfg.gamma cfg.lam 0
  let params ← epochs nets cfg (s.buffer.sample (normalised nets advantages) returns) shuffles s.buffer.states.length
    s.params
  return { s with params := params, buffer := .empty }

inductive Event (n : Nat) where
  | collect (draw : Draw n)
  | update (shuffles : Nat → List Nat → List Nat)

/-- Whether the outer loop is in its body. -/
def Session.running (s : Session θ n) : Prop := s.buffer.rewards ≠ [] ∨ s.totalSteps < cfg.totalSteps

instance (s : Session θ n) : Decidable (s.running cfg) := inferInstanceAs (Decidable (_ ∨ _))

def Session.exec (s : Session θ n) : Event n → Option (Session θ n)
  | .collect draw =>
    if s.running cfg ∧ s.buffer.rewards.length < cfg.rolloutSteps then s.collect nets cfg w draw else none
  | .update shuffles =>
    if s.running cfg ∧ s.buffer.rewards.length = cfg.rolloutSteps then s.update nets cfg shuffles else none

def Session.start (params : θ) (draws : Fin n → ℚ) : Session θ n :=
  let (env, state) := TrainEnv.init.reset w draws
  ⟨params, none, env, state, 0, 0, .empty⟩

/-! ### What is promised -/

/-- The last layer of the actor is a softmax. -/
def Softmax (n : Nat) (nets : Networks θ) : Prop :=
  ∀ params state, OnSimplex (nets.actor params state) ∧ (nets.actor params state).length = n

/-- Dirichlet draws a distribution over as many backends as there are concentrations. -/
def Draw.Fits (draw : Draw n) : Prop :=
  ∀ c : List ℚ, (∀ x ∈ c, 0 < x) → c.length = n → OnSimplex (draw.sample c) ∧ (draw.sample c).length = n

def Drawn (_ : Session θ n) : Event n → Prop
  | .collect draw => draw.Fits
  | .update shuffles => Shuffles shuffles

/-- What the layer before the environment sees is the load of each backend. -/
def Seen (s : Session θ n) : Prop := loadsOf n s.state = List.ofFn fun i => s.env.loads i / s.env.capacities i

/-- The buffer after the given number of steps of training: an episode ends every 2048 steps, in the
middle of a rollout or not. -/
structure Batch (n : Nat) (steps : Nat) (b : RolloutBuffer) : Prop where
  filled : Ppo.Filled b.toRolloutBuffer
  states : b.states.length = b.rewards.length
  rows : ∀ row ∈ b.states, row.length = n * 8 + 4
  actions : b.actions.length = b.rewards.length
  logProbs : b.logProbs.length = b.rewards.length
  taken : b.rewards.length ≤ steps
  dones : ∀ t, t < b.rewards.length →
    b.dones[t]? = some (if 2048 ∣ steps - b.rewards.length + (t + 1) then 1 else 0)
  safe : ∀ a ∈ b.actions, OnSimplex a ∧ a.length = n

structure Trained (s : Session θ n) : Prop where
  seen : Seen s
  batch : Batch n s.totalSteps s.buffer
  size : s.buffer.rewards.length ≤ cfg.rolloutSteps
  whole : cfg.rolloutSteps ∣ s.totalSteps - s.buffer.rewards.length
  episodes : s.episode = s.totalSteps / 2048

/-! ### The policy and the layer behind it -/

theorem smoothedSimplex {alpha : ℚ} (low : 0 ≤ alpha) (high : alpha ≤ 1) {prevWeights : Option (List ℚ)}
    {weights : List ℚ} (before : ∀ prev, prevWeights = some prev → OnSimplex prev ∧ prev.length = weights.length)
    (simplex : OnSimplex weights) : OnSimplex (smoothed alpha prevWeights weights) ∧
      (smoothed alpha prevWeights weights).length = weights.length := by
  cases prevWeights with
  | none => exact ⟨simplex, rfl⟩
  | some prev =>
    obtain ⟨held, length⟩ := before prev rfl
    have mixed := Simplex.mixOnSimplex low high length.symm simplex held
    have divided : smoothed alpha (some prev) weights =
        List.zipWith (fun x y => alpha * x + (1 - alpha) * y) weights prev := by
      rw [smoothed, mixed.total, List.map_congr_left fun x _ => div_one x, List.map_id']
    rw [divided]
    exact ⟨mixed, by simp [length]⟩

theorem concentrationsPositive {weights : List ℚ} (simplex : OnSimplex weights) : ∀ x ∈ concentrations weights, 0 < x := by
  intro x inside
  obtain ⟨y, at_, rfl⟩ := List.mem_map.mp inside
  have nonneg := simplex.nonneg y at_
  positivity

theorem projectSafe {action loads : List ℚ} (simplex : OnSimplex action) (counted : loads.length = action.length)
    (lam cap : ℚ) : ∃ safe, cbfProject action loads lam cap 0.05 200 = some safe ∧ OnSimplex safe ∧
      safe.length = action.length := by
  have nonempty := Simplex.simplexNonempty simplex
  have paired : (loads.map fun load => CbfProjector.CBFBackendState.mk 0 load).length = action.length := by
    rw [List.length_map, counted]
  have loop := PpoProjection.sameLoop ⟨lam, cap, [], 0, false⟩ paired nonempty 200 rfl
  have iterate := CbfProjector.descendIterate ⟨lam, cap, [], 0, false⟩ paired nonempty 200 ⟨rfl, simplex⟩
  rw [List.map_map, show CbfProjector.CBFBackendState.currentLoad ∘ CbfProjector.CBFBackendState.mk 0 = id from rfl,
    List.map_id] at loop
  exact ⟨_, loop, iterate.simplex, iterate.aligned⟩

theorem seenState (env : TrainEnv n) :
    loadsOf n (env.state w) = List.ofFn fun i => env.loads i / env.capacities i := by
  refine List.ext_getElem (by simp [loadsOf]) fun i inside _ => ?_
  have before : i < n := by simpa [loadsOf] using inside
  have width : ∀ j, (SimEnv.perServer (env.loads j) (env.capacities j)).length = Rl.perServer := fun _ => rfl
  have place : (List.finRange n)[i]? = some ⟨i, before⟩ := by simp [before]
  have entry : (env.state w)[i * 8]? = some (env.loads ⟨i, before⟩ / env.capacities ⟨i, before⟩) :=
    Rl.rowPosition width _ place (k := 0) (by decide)
  simp only [loadsOf, List.getElem_map, List.getElem_range, List.getElem_ofFn]
  rw [List.getD_eq_getElem?_getD, entry, Option.getD_some]

theorem stateLength (env : TrainEnv n) : (env.state w).length = n * 8 + 4 := by
  have width : ∀ j, (SimEnv.perServer (env.loads j) (env.capacities j)).length = 8 := fun _ => rfl
  simp [TrainEnv.state, SimEnv.observation, List.length_flatMap, width]

/-! ### One step -/

structure Known (s : Session θ n) : Prop where
  state : s.state = s.env.state w
  steps : s.env.stepCount = s.totalSteps % 2048
  prev : ∀ prev, s.prevWeights = some prev → OnSimplex prev ∧ prev.length = n
  batch : Batch n s.totalSteps s.buffer
  size : s.buffer.rewards.length ≤ cfg.rolloutSteps
  whole : cfg.rolloutSteps ∣ s.totalSteps - s.buffer.rewards.length
  episodes : s.episode = s.totalSteps / 2048

omit [NeZero n] in
theorem pushBatch {steps : Nat} {b : RolloutBuffer} (batch : Batch n steps b) {state : List ℚ}
    (row : state.length = n * 8 + 4) (chosen : Selected) {safe : List ℚ} (simplex : OnSimplex safe) (length : safe.length = n) (reward : ℚ) {done : Bool}
    (ends : done = decide (2048 ∣ steps + 1)) : Batch n (steps + 1) (b.push state chosen safe reward done) := by
  have size : (b.push state chosen safe reward done).rewards.length = b.rewards.length + 1 := by
    simp [RolloutBuffer.push]
  have taken := batch.taken
  constructor
  · refine ⟨?_, ?_, fun flag inside => ?_⟩
    · simp [RolloutBuffer.push, batch.filled.values]
    · simp [RolloutBuffer.push, batch.filled.dones]
    · rcases List.mem_append.mp inside with before | last
      · exact batch.filled.flags flag before
      · rw [List.mem_singleton.mp last]
        cases done <;> simp
  · simp [RolloutBuffer.push, batch.states]
  · intro other inside
    rcases List.mem_append.mp inside with before | last
    · exact batch.rows other before
    · rw [List.mem_singleton.mp last]
      exact row
  · simp [RolloutBuffer.push, batch.actions]
  · simp [RolloutBuffer.push, batch.logProbs]
  · omega
  · intro t inside
    rw [size] at inside ⊢
    rw [Nat.add_sub_add_right]
    rcases Nat.lt_or_eq_of_le (Nat.le_of_lt_succ inside) with before | rfl
    · have place : t < b.dones.length := batch.filled.dones ▸ before
      rw [RolloutBuffer.push, List.getElem?_append_left place]
      exact batch.dones t before
    · rw [RolloutBuffer.push, List.getElem?_append_right batch.filled.dones.le, batch.filled.dones, Nat.sub_self,
        ends, show steps - b.rewards.length + (b.rewards.length + 1) = steps + 1 by omega]
      simp
  · intro action inside
    rcases List.mem_append.mp inside with before | last
    · exact batch.safe action before
    · rw [List.mem_singleton.mp last]
      exact ⟨simplex, length⟩

theorem followKnown {s : Session θ n} (known : Known cfg w s) (room : s.buffer.rewards.length < cfg.rolloutSteps)
    (draw : Draw n) {chosen : Selected} (held : OnSimplex chosen.prevWeights ∧ chosen.prevWeights.length = n)
    {safe : List ℚ} (simplex : OnSimplex safe) (length : safe.length = n) :
    Known cfg w (s.follow cfg w draw chosen safe) := by
  have steps := known.steps
  have episodes := known.episodes
  have count : (s.env.step cfg.reward w (fun i => safe.getD i 0) draw.noise).1.stepCount = s.env.stepCount + 1 := rfl
  have next : (s.env.step cfg.reward w (fun i => safe.getD i 0) draw.noise).2.1 =
      (s.env.step cfg.reward w (fun i => safe.getD i 0) draw.noise).1.state w := rfl
  have ends : (s.env.step cfg.reward w (fun i => safe.getD i 0) draw.noise).2.2.2 = decide (2048 ∣ s.totalSteps + 1) := by
    change decide (2048 ≤ s.env.stepCount + 1) = _
    exact decide_eq_decide.mpr (by omega)
  have whole : cfg.rolloutSteps ∣ s.totalSteps + 1 - (s.buffer.rewards.length + 1) := by
    rw [Nat.add_sub_add_right]
    exact known.whole
  have prev : ∀ prev, some chosen.prevWeights = some prev → OnSimplex prev ∧ prev.length = n := by
    intro _ same
    exact Option.some.inj same ▸ held
  unfold Session.follow
  generalize s.env.step cfg.reward w (fun i => safe.getD i 0) draw.noise = out at count next ends ⊢
  obtain ⟨env, nextState, reward, done⟩ := out
  dsimp only at count next ends ⊢
  have row : s.state.length = n * 8 + 4 := by
    rw [known.state]
    exact stateLength w s.env
  have batch := pushBatch known.batch row chosen simplex length reward ends
  have size : (s.buffer.push s.state chosen safe reward done).rewards.length = s.buffer.rewards.length + 1 := by
    simp [RolloutBuffer.push]
  cases done with
  | true =>
    have ended : 2048 ∣ s.totalSteps + 1 := of_decide_eq_true ends.symm
    refine ⟨rfl, ?_, prev, batch, size ▸ room, size ▸ whole, ?_⟩
    · exact (Nat.mod_eq_zero_of_dvd ended).symm
    · simp only [if_true]
      omega
  | false =>
    have going : ¬ 2048 ∣ s.totalSteps + 1 := of_decide_eq_false ends.symm
    refine ⟨next, ?_, prev, batch, size ▸ room, size ▸ whole, ?_⟩
    · simp only [Bool.false_eq_true, if_false]
      omega
    · simp only [Bool.false_eq_true, if_false]
      omega

theorem followLength (s : Session θ n) (draw : Draw n) (chosen : Selected) (safe : List ℚ) :
    (s.follow cfg w draw chosen safe).buffer.rewards.length = s.buffer.rewards.length + 1 := by
  unfold Session.follow
  generalize s.env.step cfg.reward w (fun i => safe.getD i 0) draw.noise = out
  obtain ⟨env, nextState, reward, done⟩ := out
  cases done <;> simp [RolloutBuffer.push]

theorem collectKnown (softmax : Softmax n nets) (low : 0 ≤ cfg.actionSmoothing) (high : cfg.actionSmoothing ≤ 1)
    {s : Session θ n} (known : Known cfg w s) (room : s.buffer.rewards.length < cfg.rolloutSteps) {draw : Draw n}
    (fits : draw.Fits) : ∃ t, s.collect nets cfg w draw = some t ∧ Known cfg w t ∧
      t.buffer.rewards.length = s.buffer.rewards.length + 1 := by
  obtain ⟨simplex, length⟩ := softmax s.params s.state
  obtain ⟨held, same⟩ := smoothedSimplex low high
    (fun prev before => (known.prev prev before).imp id (·.trans length.symm)) simplex
  unfold Session.collect selectAction
  generalize smoothed cfg.actionSmoothing s.prevWeights (nets.actor s.params s.state) = weights at held same ⊢
  have positive := concentrationsPositive held
  obtain ⟨drawn, size⟩ := fits (concentrations weights) positive (by rw [concentrations, List.length_map, same, length])
  have allowed : (concentrations weights).all (fun x => decide (0 < x)) = true :=
    List.all_eq_true.mpr fun x inside => decide_eq_true (positive x inside)
  have counted : (loadsOf n s.state).length = (draw.sample (concentrations weights)).length := by
    rw [loadsOf, List.length_map, List.length_range, size]
  obtain ⟨safe, projected, after, sized⟩ := projectSafe drawn counted cfg.cbfLambda cfg.capacityCap
  simp only [if_pos allowed, Option.bind_eq_bind, Option.bind_some, projected]
  exact ⟨_, rfl, followKnown cfg w known room draw ⟨held, same.trans length⟩ after (sized.trans size),
    followLength cfg w s draw _ safe⟩

theorem updateKnown {s t : Session θ n} (known : Known cfg w s) (full : s.buffer.rewards.length = cfg.rolloutSteps)
    {shuffles : Nat → List Nat → List Nat} (did : s.update nets cfg shuffles = some t) : Known cfg w t := by
  simp only [Session.update, bind, Option.bind_eq_some_iff] at did
  obtain ⟨⟨advantages, returns⟩, _, params, _, last⟩ := did
  cases last
  refine ⟨known.state, known.steps, known.prev, ?_, ?_, ?_, known.episodes⟩
  · exact ⟨⟨rfl, rfl, nofun⟩, rfl, nofun, rfl, rfl, Nat.zero_le _, nofun, nofun⟩
  · exact Nat.zero_le _
  · have taken := known.batch.taken
    have split : s.totalSteps = (s.totalSteps - s.buffer.rewards.length) + cfg.rolloutSteps := by omega
    change cfg.rolloutSteps ∣ s.totalSteps - 0
    rw [Nat.sub_zero, split]
    exact (Nat.dvd_add_right known.whole).mpr (dvd_refl _)

omit [NeZero n] in
theorem sampleFits {steps : Nat} {b : RolloutBuffer} (batch : Batch n steps b) {advantages returns : List ℚ}
    (advanced : advantages.length = b.rewards.length) (returned : returns.length = b.rewards.length) {i : Nat}
    (inside : i < b.rewards.length) : ∃ x, b.sample advantages returns i = some x ∧ x.Fits n := by
  have state : i < b.states.length := batch.states ▸ inside
  have action : i < b.actions.length := batch.actions ▸ inside
  have safe := batch.safe _ (List.getElem_mem action)
  have logProb : i < b.logProbs.length := batch.logProbs ▸ inside
  refine ⟨⟨b.states[i], b.actions[i], b.logProbs[i], advantages[i], returns[i]⟩, ?_,
    ⟨batch.rows _ (List.getElem_mem state), safe.1, safe.2⟩⟩
  simp [RolloutBuffer.sample, state, action, logProb, advanced, returned, inside]

theorem updateGoes (learns : Learns n nets) (sized : 0 < cfg.batchSize) {s : Session θ n} (known : Known cfg w s)
    {shuffles : Nat → List Nat → List Nat} (shuffled : Shuffles shuffles) :
    ∃ t, s.update nets cfg shuffles = some t := by
  have filled := known.batch.filled
  obtain ⟨advantages, returns, computed, advanced, returned⟩ : ∃ advantages returns,
      s.buffer.computeGae cfg.gamma cfg.lam 0 = some (advantages, returns) ∧
        advantages.length = s.buffer.rewards.length ∧ returns.length = s.buffer.rewards.length :=
    ⟨_, _, Ppo.computeGaeAdvantages cfg.gamma cfg.lam 0 filled, by simp, by simp [filled.values]⟩
  have fits : ∀ i, i < s.buffer.states.length →
      ∃ x, s.buffer.sample (normalised nets advantages) returns i = some x ∧ x.Fits n := fun i inside =>
    sampleFits known.batch (by simp [normalised, advanced]) returned (known.batch.states ▸ inside)
  obtain ⟨params, learnt⟩ := epochsGo nets cfg learns sized fits shuffled s.params
  refine ⟨{ s with params := params, buffer := .empty }, ?_⟩
  simp only [Session.update, computed, learnt, Option.bind_eq_bind, Option.bind_some]
  rfl

/-! ### Every run -/

theorem startKnown (params : θ) (draws : Fin n → ℚ) : Known cfg w (Session.start w params draws) where
  state := rfl
  steps := rfl
  prev _ held := absurd held nofun
  batch := ⟨⟨rfl, rfl, nofun⟩, rfl, nofun, rfl, rfl, Nat.zero_le _, nofun, nofun⟩
  size := Nat.zero_le _
  whole := dvd_zero _
  episodes := (Nat.zero_div _).symm

theorem execKnown (softmax : Softmax n nets) (low : 0 ≤ cfg.actionSmoothing) (high : cfg.actionSmoothing ≤ 1)
    (s : Session θ n) (e : Event n) (t : Session θ n) (known : Known cfg w s) (drawn : Drawn s e)
    (taken : Does (Session.exec nets cfg w) s e t) : Known cfg w t := by
  cases e with
  | collect draw =>
    simp only [Does, Session.exec] at taken
    split at taken
    · rename_i open_
      obtain ⟨u, did, next, _⟩ := collectKnown nets cfg w softmax low high known open_.2 drawn
      cases did.symm.trans taken
      exact next
    · cases taken
  | update shuffles =>
    simp only [Does, Session.exec] at taken
    split at taken
    · rename_i open_
      exact updateKnown nets cfg w known open_.2 taken
    · cases taken

variable {nets cfg w} {params : θ} {draws : Fin n → ℚ} {es : List (Event n)} {s : Session θ n}

theorem runKnown (softmax : Softmax n nets) (low : 0 ≤ cfg.actionSmoothing) (high : cfg.actionSmoothing ≤ 1)
    (run : Run (Guarded Drawn (Does (Session.exec nets cfg w))) (.start w params draws) es s) : Known cfg w s :=
  StepRun.guardedInvariant (execKnown nets cfg w softmax low high) run (startKnown cfg w params draws)

/-- Training raises nowhere: whenever it is not over, the next step or the update goes through. In the
buffer the actions are distributions and the flags mark the ends of the episodes. -/
theorem trainingGoesOn (softmax : Softmax n nets) (learns : Learns n nets) (low : 0 ≤ cfg.actionSmoothing)
    (high : cfg.actionSmoothing ≤ 1) (sized : 0 < cfg.batchSize)
    (run : Run (Guarded Drawn (Does (Session.exec nets cfg w))) (.start w params draws) es s) :
    Trained cfg s ∧ (s.running cfg → ∀ draw : Draw n, draw.Fits → ∀ shuffles, Shuffles shuffles →
      (∃ t, s.exec nets cfg w (.collect draw) = some t) ∨ ∃ t, s.exec nets cfg w (.update shuffles) = some t) := by
  have known := runKnown softmax low high run
  have seen : Seen s := by
    rw [Seen, known.state, seenState]
  refine ⟨⟨seen, known.batch, known.size, known.whole, known.episodes⟩, fun going draw fits shuffles shuffled => ?_⟩
  rcases Nat.lt_or_eq_of_le known.size with room | full
  · obtain ⟨t, did, _⟩ := collectKnown nets cfg w softmax low high known room fits
    exact .inl ⟨t, (if_pos ⟨going, room⟩).trans did⟩
  · obtain ⟨t, did⟩ := updateGoes nets cfg w learns sized known shuffled
    exact .inr ⟨t, (if_pos ⟨going, full⟩).trans did⟩

/-- Where a rollout is made of whole episodes, it ends with one, and the value that the update puts behind
the last step, which is 0, has no part in the advantages. -/
theorem bootstrapIrrelevant (softmax : Softmax n nets) (low : 0 ≤ cfg.actionSmoothing) (high : cfg.actionSmoothing ≤ 1)
    (run : Run (Guarded Drawn (Does (Session.exec nets cfg w))) (.start w params draws) es s)
    (episodic : 2048 ∣ cfg.rolloutSteps) (full : s.buffer.rewards.length = cfg.rolloutSteps) :
    (0 < cfg.rolloutSteps → s.buffer.dones.getLast? = some 1) ∧ ∀ lastValue,
      s.buffer.computeGae cfg.gamma cfg.lam lastValue = s.buffer.computeGae cfg.gamma cfg.lam 0 := by
  have known := runKnown softmax low high run
  have filled := known.batch.filled
  have ends : 0 < cfg.rolloutSteps → s.buffer.dones[s.buffer.rewards.length - 1]? = some 1 := by
    intro some_
    have before : 2048 ∣ s.totalSteps - s.buffer.rewards.length := episodic.trans known.whole
    have rollout : 2048 ∣ s.buffer.rewards.length - 1 + 1 := by
      rw [Nat.sub_add_cancel (by omega), full]
      exact episodic
    rw [known.batch.dones _ (by omega), if_pos ((Nat.dvd_add_right before).mpr rollout)]
  refine ⟨fun some_ => ?_, fun lastValue => ?_⟩
  · rw [List.getLast?_eq_getElem?, filled.dones]
    exact ends some_
  · rw [Ppo.computeGaeAdvantages cfg.gamma cfg.lam lastValue filled, Ppo.computeGaeAdvantages cfg.gamma cfg.lam 0 filled]
    have same : ∀ t ∈ List.range s.buffer.rewards.length,
        s.buffer.advantage cfg.gamma cfg.lam lastValue t = s.buffer.advantage cfg.gamma cfg.lam 0 t := by
      intro t inside
      rw [List.mem_range] at inside
      exact Ppo.advantageAlike cfg.gamma cfg.lam lastValue filled filled 0
        ⟨fun _ _ => rfl, fun _ _ => rfl, fun _ _ => rfl⟩ (ends (by omega)) (by omega)
    rw [List.map_congr_left same]

theorem fillsBuffer (softmax : Softmax n nets) (low : 0 ≤ cfg.actionSmoothing) (high : cfg.actionSmoothing ≤ 1)
    (some_ : 0 < cfg.totalSteps) {draw : Draw n} (fits : draw.Fits) {k : Nat} (size : k ≤ cfg.rolloutSteps) :
    ∃ es s, Run (Guarded Drawn (Does (Session.exec nets cfg w))) (.start w params draws) es s ∧
      s.buffer.rewards.length = k ∧ s.running cfg := by
  induction k with
  | zero => exact ⟨[], _, .nil _, rfl, .inr some_⟩
  | succ k ih =>
    obtain ⟨es, s, run, length, going⟩ := ih (Nat.le_of_succ_le size)
    have room : s.buffer.rewards.length < cfg.rolloutSteps := length ▸ size
    obtain ⟨t, did, _, grown⟩ := collectKnown nets cfg w softmax low high (runKnown softmax low high run) room fits
    have taken : Does (Session.exec nets cfg w) s (.collect draw) t := (if_pos ⟨going, room⟩).trans did
    have step : Guarded Drawn (Does (Session.exec nets cfg w)) s (.collect draw) t := ⟨fits, taken⟩
    refine ⟨_, t, StepRun.runSnoc run step, grown.trans (congrArg (· + 1) length), .inl ?_⟩
    rintro empty
    rw [empty] at grown
    cases grown

end Training

/-! ### A rollout of the length that is shipped -/

def shipped : PPOConfig :=
  ⟨SimEnv.trained, 99 / 100, 95 / 100, 10, 512, 2048, 1000000, 7 / 10, 1 / 2, 8 / 10⟩

/-- A policy of two backends that takes most to the idler one; its parameter counts the minibatches. -/
def leaning : Networks Nat where
  actor _ state := if state.getD 0 0 ≤ state.getD 8 0 then [3 / 4, 1 / 4] else [1 / 4, 3 / 4]
  critic learnt _ := -learnt
  logProb _ _ := 0
  std _ := 1
  learn batch learnt := if batch.all fun x => decide (x.action.sum = 1) then some (learnt + 1) else none

/-- The mean of the Dirichlet distribution. -/
def drawMean : Draw 2 := ⟨fun c => c.map (· / c.sum), 5, fun i => if i.val = 0 then 1 / 10 else 3 / 10⟩

theorem leaningSoftmax : Softmax 2 leaning := by
  intro learnt state
  simp only [leaning]
  split
  · exact ⟨⟨by norm_num, by norm_num⟩, rfl⟩
  · exact ⟨⟨by norm_num, by norm_num⟩, rfl⟩

theorem leaningLearns : Learns 2 leaning := fun _ learnt _ fits =>
  ⟨learnt + 1, if_pos (List.all_eq_true.mpr fun x inside => decide_eq_true (fits x inside).simplex.total)⟩

theorem drawMeanFits : drawMean.Fits := by
  intro c positive length
  have some_ : c ≠ [] := by
    rintro rfl
    cases length
  exact ⟨Simplex.shareOnSimplex (fun x inside => (positive x inside).le) (List.sum_pos c positive some_),
    (List.length_map _).trans length⟩

theorem smoothingRange : 0 ≤ shipped.actionSmoothing ∧ shipped.actionSmoothing ≤ 1 := by
  norm_num [shipped]

theorem rolloutFilled : ∃ es s, Run (Guarded Drawn (Does (Session.exec leaning shipped SimEnv.approximate)))
    (.start SimEnv.approximate 0 drawMean.reset) es s ∧
      s.buffer.rewards.length = shipped.rolloutSteps ∧ s.running shipped :=
  fillsBuffer leaningSoftmax smoothingRange.1 smoothingRange.2 (by decide) drawMeanFits le_rfl

theorem trainingGoesOnFilled : ∃ es s, Run (Guarded Drawn (Does (Session.exec leaning shipped SimEnv.approximate)))
    (.start SimEnv.approximate 0 drawMean.reset) es s ∧
      s.buffer.rewards.length = 2048 ∧ Trained shipped s ∧
      ∃ t, s.exec leaning shipped SimEnv.approximate (.update fun _ => List.reverse) = some t := by
  obtain ⟨es, s, run, full, going⟩ := rolloutFilled
  obtain ⟨trained, onward⟩ :=
    trainingGoesOn leaningSoftmax leaningLearns smoothingRange.1 smoothingRange.2 (by decide) run
  have next := onward going drawMean drawMeanFits (fun _ => List.reverse) fun _ => List.reverse_perm
  refine ⟨es, s, run, full, trained, next.resolve_left ?_⟩
  rintro ⟨t, did⟩
  rw [Session.exec, if_neg fun room => (room.2.trans_eq full.symm).false] at did
  cases did

theorem bootstrapIrrelevantFilled : ∃ es s,
    Run (Guarded Drawn (Does (Session.exec leaning shipped SimEnv.approximate)))
      (.start SimEnv.approximate 0 drawMean.reset) es s ∧
      s.buffer.rewards.length = 2048 ∧ s.buffer.dones.getLast? = some 1 ∧
      s.buffer.computeGae shipped.gamma shipped.lam 7 = s.buffer.computeGae shipped.gamma shipped.lam 0 := by
  obtain ⟨es, s, run, full, going⟩ := rolloutFilled
  obtain ⟨ends, same⟩ :=
    bootstrapIrrelevant leaningSoftmax smoothingRange.1 smoothingRange.2 run (dvd_refl 2048) full
  exact ⟨es, s, run, full, ends (by decide), same 7⟩

end OmegaLb.PpoTraining
