import OmegaLb.A3CWorker
import OmegaLb.BoundedRing
import OmegaLb.ControlLoop

/-! The DQN half of train in train_dqn_a3c.py over exact rationals: one agent, one replay buffer and one
environment for each service. The networks, the optimizer and the random draws are parameters. -/
namespace OmegaLb.DqnTraining
open A3C (RateLimitEnv)
open BoundedRing (lastOf)
open ControlLoop (argmax)
open CbfRuntime (dequeAppend)

structure Transition where
  state : List ℚ
  action : Nat
  reward : ℚ
  nextState : List ℚ
  done : Bool

/-- Nothing of a batch of 0, a decay of 0 or a frequency of 0 gets through the loop. -/
structure DQNConfig where
  actionDim : Nat
  epsilonStart : ℚ
  epsilonEnd : ℚ
  epsilonDecay : Nat
  replayCapacity : Nat
  batchSize : Nat
  targetUpdateFreq : Nat
  numServices : Nat
  decays : 0 < epsilonDecay
  batches : 0 < batchSize
  updates : 0 < targetUpdateFreq

/-- `learn` is one step of the optimizer on a batch, given the target network. -/
structure Learner (θ W : Type) where
  weights : θ → W
  qValues : W → List ℚ → List ℚ
  learn : θ → W → List Transition → θ

/-- What one round of a service draws. -/
structure Draw where
  uniform : ℚ
  action : Nat
  batch : List Transition → List Transition

section Training
variable {θ W : Type} (learner : Learner θ W) (cfg : DQNConfig) (sin : ℚ → ℚ)

structure DQNServiceAgent (θ W : Type) where
  policyNet : θ
  targetNet : W
  buffer : List Transition
  stepCount : Nat
  epsilon : ℚ

def DQNServiceAgent.init (policyNet : θ) : DQNServiceAgent θ W :=
  ⟨policyNet, learner.weights policyNet, [], 0, cfg.epsilonStart⟩

def DQNServiceAgent.selectAction (a : DQNServiceAgent θ W) (state : List ℚ) (draw : Draw) : DQNServiceAgent θ W × Nat :=
  let epsilon := max cfg.epsilonEnd (cfg.epsilonStart - (a.stepCount : ℚ) / cfg.epsilonDecay)
  ({ a with epsilon := epsilon },
    if draw.uniform < epsilon then draw.action else argmax (learner.qValues (learner.weights a.policyNet) state))

def DQNServiceAgent.update (a : DQNServiceAgent θ W) (draw : Draw) : DQNServiceAgent θ W :=
  if a.buffer.length < cfg.batchSize then a
  else
    let policyNet := learner.learn a.policyNet a.targetNet (draw.batch a.buffer)
    let stepCount := a.stepCount + 1
    { a with
      policyNet := policyNet
      stepCount := stepCount
      targetNet := if stepCount % cfg.targetUpdateFreq = 0 then learner.weights policyNet else a.targetNet }

structure Service (θ W : Type) where
  agent : DQNServiceAgent θ W
  env : RateLimitEnv
  state : List ℚ

def Service.start (policyNet : θ) : Service θ W :=
  let (env, state) := RateLimitEnv.init.reset sin
  ⟨.init learner cfg policyNet, env, state⟩

def Service.transition (s : Service θ W) (draw : Draw) : Transition :=
  let action := (s.agent.selectAction learner cfg s.state draw).2
  let (_, nextState, reward, done) := s.env.step sin action
  ⟨s.state, action, reward, nextState, done⟩

def Service.round (s : Service θ W) (draw : Draw) : Service θ W :=
  let (agent, action) := s.agent.selectAction learner cfg s.state draw
  let (env, nextState, _, done) := s.env.step sin action
  let agent := { agent with
    buffer := dequeAppend cfg.replayCapacity agent.buffer (s.transition learner cfg sin draw) }
  let (env, state) := if done then env.reset sin else (env, nextState)
  ⟨agent.update learner cfg draw, env, state⟩

/-- The main loop after so many steps, from the networks that the agents were made with. -/
def train (policyNets : Nat → θ) (draws : Nat → Nat → Draw) : Nat → List (Service θ W)
  | 0 => (List.range cfg.numServices).map fun i => Service.start learner cfg sin (policyNets i)
  | steps + 1 => (train policyNets draws steps).mapIdx fun i s => s.round learner cfg sin (draws steps i)

/-! ### What is promised -/

/-- sample takes that many transitions of the buffer, no entry twice. -/
def Draw.Fits (draw : Draw) : Prop :=
  ∀ buffer : List Transition, cfg.batchSize ≤ buffer.length →
    (draw.batch buffer).Subperm buffer ∧ (draw.batch buffer).length = cfg.batchSize

/-- A transition of the environment in the round `k` of an agent. -/
def Experienced (k : Nat) (t : Transition) : Prop :=
  ∃ limit : ℚ, 100 ≤ limit ∧ limit ≤ 10000 ∧
    t.state = RateLimitEnv.observe sin ⟨limit, 100, 10000, k % 1000⟩ ∧
    (t.nextState, t.reward, t.done) = (RateLimitEnv.step sin ⟨limit, 100, 10000, k % 1000⟩ t.action).2

def Transition.onward (t : Transition) : List ℚ := if t.done then RateLimitEnv.observe sin .init else t.nextState

/-- The gradient steps after so many rounds: none before the buffer holds a batch. -/
def gradientSteps (rounds : Nat) : Nat :=
  if cfg.batchSize ≤ cfg.replayCapacity then rounds + 1 - cfg.batchSize else 0

/-- The gradient step at which the target network was last written. -/
def synced (steps : Nat) : Nat := steps / cfg.targetUpdateFreq * cfg.targetUpdateFreq

/-- The rounds of a service: its transitions, and its networks after each gradient step. -/
structure Story (policyNet : θ) (rounds : Nat) (s : Service θ W) (history : List Transition) (networks : Nat → θ) :
    Prop where
  length : history.length = rounds
  first : ∀ t, history[0]? = some t → t.state = RateLimitEnv.observe sin .init
  now : s.state = (history.getLast?.map (Transition.onward sin)).getD (RateLimitEnv.observe sin .init)
  linked : ∀ k t u, history[k]? = some t → history[k + 1]? = some u → u.state = t.onward sin
  experienced : ∀ k t, history[k]? = some t → Experienced sin k t ∧ t.done = decide (1000 ∣ k + 1)
  buffer : s.agent.buffer = lastOf cfg.replayCapacity history
  steps : s.agent.stepCount = gradientSteps cfg rounds
  start : networks 0 = policyNet
  policy : s.agent.policyNet = networks s.agent.stepCount
  target : s.agent.targetNet = learner.weights (networks (synced cfg s.agent.stepCount))
  learned : ∀ k, k < s.agent.stepCount → ∃ batch : List Transition,
    batch.Subperm (lastOf cfg.replayCapacity (history.take (k + cfg.batchSize))) ∧ batch.length = cfg.batchSize ∧
    networks (k + 1) = learner.learn (networks k) (learner.weights (networks (synced cfg k))) batch

/-! ### The environment -/

structure Placed (rounds : Nat) (s : Service θ W) : Prop where
  state : s.state = s.env.observe sin
  env : ∃ limit : ℚ, 100 ≤ limit ∧ limit ≤ 10000 ∧ s.env = ⟨limit, 100, 10000, rounds % 1000⟩

theorem actLimit {limit : ℚ} (low : 100 ≤ limit) (high : limit ≤ 10000) (step : Nat) (action : Int) :
    ∃ next : ℚ, 100 ≤ next ∧ next ≤ 10000 ∧
      RateLimitEnv.act ⟨limit, 100, 10000, step⟩ action = ⟨next, 100, 10000, step⟩ := by
  unfold RateLimitEnv.act
  split
  · exact ⟨_, le_max_left _ _, max_le (by norm_num) (by linarith), rfl⟩
  · split
    · exact ⟨_, le_min (by norm_num) (by linarith), min_le_left _ _, rfl⟩
    · exact ⟨limit, low, high, rfl⟩

theorem envStep {limit : ℚ} (low : 100 ≤ limit) (high : limit ≤ 10000) (step : Nat) (action : Int) :
    ∃ next : ℚ, 100 ≤ next ∧ next ≤ 10000 ∧
      (RateLimitEnv.step sin ⟨limit, 100, 10000, step⟩ action).1 = ⟨next, 100, 10000, step + 1⟩ ∧
      (RateLimitEnv.step sin ⟨limit, 100, 10000, step⟩ action).2.1 =
        RateLimitEnv.observe sin ⟨next, 100, 10000, step + 1⟩ ∧
      (RateLimitEnv.step sin ⟨limit, 100, 10000, step⟩ action).2.2.2 = decide (1000 ≤ step + 1) := by
  obtain ⟨next, above, below, acted⟩ := actLimit low high step action
  refine ⟨next, above, below, ?_⟩
  unfold RateLimitEnv.step
  rw [acted]
  exact ⟨rfl, rfl, rfl⟩

theorem transitionExperienced {rounds : Nat} {s : Service θ W} (placed : Placed sin rounds s) (draw : Draw) :
    Experienced sin rounds (s.transition learner cfg sin draw) ∧
      (s.transition learner cfg sin draw).done = decide (1000 ∣ rounds + 1) := by
  obtain ⟨state, limit, low, high, env⟩ := placed
  rw [env] at state
  obtain ⟨_, _, _, _, _, ends⟩ := envStep sin low high (rounds % 1000)
    (s.agent.selectAction learner cfg s.state draw).2
  unfold Service.transition
  rw [env]
  refine ⟨⟨limit, low, high, state, rfl⟩, ends.trans (decide_eq_decide.mpr (by omega))⟩

theorem resetInit (limit : ℚ) (step : Nat) :
    RateLimitEnv.reset sin ⟨limit, 100, 10000, step⟩ = (.init, RateLimitEnv.observe sin .init) := rfl

theorem roundAnswer (s : Service θ W) (draw : Draw) {out : RateLimitEnv × List ℚ × ℚ × Bool}
    (answered : s.env.step sin (s.agent.selectAction learner cfg s.state draw).2 = out) :
    ((s.round learner cfg sin draw).env, (s.round learner cfg sin draw).state) =
        (if out.2.2.2 then out.1.reset sin else (out.1, out.2.1)) ∧
      (s.transition learner cfg sin draw).onward sin =
        if out.2.2.2 then RateLimitEnv.observe sin .init else out.2.1 := by
  subst answered
  exact ⟨rfl, rfl⟩

theorem roundPlaced {rounds : Nat} {s : Service θ W} (placed : Placed sin rounds s) (draw : Draw) :
    Placed sin (rounds + 1) (s.round learner cfg sin draw) ∧
      (s.round learner cfg sin draw).state = (s.transition learner cfg sin draw).onward sin := by
  obtain ⟨_, limit, low, high, env⟩ := placed
  obtain ⟨next, above, below, after, seen, ends⟩ := envStep sin low high (rounds % 1000)
    (s.agent.selectAction learner cfg s.state draw).2
  obtain ⟨answered, onward⟩ := roundAnswer learner cfg sin s draw rfl
  rw [env] at answered onward
  rw [after, seen, ends] at answered
  rw [seen, ends] at onward
  by_cases late : 1000 ≤ rounds % 1000 + 1
  · have first : (rounds + 1) % 1000 = 0 := by omega
    rw [decide_eq_true late, if_pos rfl] at onward
    rw [decide_eq_true late, if_pos rfl, resetInit] at answered
    obtain ⟨env', state'⟩ := Prod.mk.inj answered
    refine ⟨⟨state'.trans (env' ▸ rfl), 1000, by norm_num, by norm_num, ?_⟩, state'.trans onward.symm⟩
    rw [env', first]
    rfl
  · have later : (rounds + 1) % 1000 = rounds % 1000 + 1 := by omega
    rw [decide_eq_false late, if_neg Bool.false_ne_true] at answered onward
    obtain ⟨env', state'⟩ := Prod.mk.inj answered
    exact ⟨⟨state'.trans (env' ▸ rfl), next, above, below, by rw [env', later]⟩, state'.trans onward.symm⟩

/-! ### The agent -/

theorem gradientNext (rounds : Nat) : gradientSteps cfg (rounds + 1) =
    if min (rounds + 1) cfg.replayCapacity < cfg.batchSize then gradientSteps cfg rounds
    else gradientSteps cfg rounds + 1 := by
  have batches := cfg.batches
  unfold gradientSteps
  split <;> split <;> omega

theorem gradientEarly {rounds k : Nat} (before : k < gradientSteps cfg rounds) : k + cfg.batchSize ≤ rounds := by
  unfold gradientSteps at before
  split at before <;> omega

theorem gradientNow {rounds : Nat} (enough : cfg.batchSize ≤ min (rounds + 1) cfg.replayCapacity) :
    gradientSteps cfg rounds + cfg.batchSize = rounds + 1 := by
  unfold gradientSteps
  split <;> omega

theorem syncedNext (steps : Nat) : synced cfg (steps + 1) =
    if (steps + 1) % cfg.targetUpdateFreq = 0 then steps + 1 else synced cfg steps := by
  unfold synced
  split
  · rename_i whole
    exact Nat.div_mul_cancel (Nat.dvd_of_mod_eq_zero whole)
  · rename_i between
    rw [Nat.succ_div_of_not_dvd fun whole => between (Nat.mod_eq_zero_of_dvd whole)]

theorem syncedBefore (steps : Nat) : synced cfg steps ≤ steps := Nat.div_mul_le_self _ _

/-- What update makes of the networks, which are numbered by the steps of the optimizer. -/
structure Updated (a : DQNServiceAgent θ W) (draw : Draw) (networks after : Nat → θ) (b : DQNServiceAgent θ W) :
    Prop where
  same : ∀ k, k ≤ a.stepCount → after k = networks k
  policy : b.policyNet = after b.stepCount
  target : b.targetNet = learner.weights (after (synced cfg b.stepCount))
  buffer : b.buffer = a.buffer
  steps : b.stepCount = if a.buffer.length < cfg.batchSize then a.stepCount else a.stepCount + 1
  learned : ¬ a.buffer.length < cfg.batchSize → after (a.stepCount + 1) = learner.learn (networks a.stepCount)
    (learner.weights (networks (synced cfg a.stepCount))) (draw.batch a.buffer)

theorem updateNetworks {a : DQNServiceAgent θ W} {networks : Nat → θ} (policy : a.policyNet = networks a.stepCount)
    (target : a.targetNet = learner.weights (networks (synced cfg a.stepCount))) (draw : Draw) :
    ∃ after : Nat → θ, Updated learner cfg a draw networks after (a.update learner cfg draw) := by
  unfold DQNServiceAgent.update
  split
  · rename_i few
    exact ⟨networks, fun _ _ => rfl, policy, target, rfl, (if_pos few).symm, fun enough => absurd few enough⟩
  · rename_i enough
    let next := learner.learn a.policyNet a.targetNet (draw.batch a.buffer)
    have before : ∀ k, k ≤ a.stepCount → Function.update networks (a.stepCount + 1) next k = networks k :=
      fun k early => Function.update_of_ne (by omega) _ _
    have at_ : Function.update networks (a.stepCount + 1) next (a.stepCount + 1) = next := Function.update_self _ _ _
    refine ⟨Function.update networks (a.stepCount + 1) next, before, at_.symm, ?_, rfl, (if_neg enough).symm,
      fun _ => ?_⟩
    · dsimp only
      rw [syncedNext]
      split
      · rw [at_]
      · rw [before _ (syncedBefore cfg _)]
        exact target
    · rw [at_, ← target, ← policy]

/-! ### The loop -/

theorem roundAgent (s : Service θ W) (draw : Draw) : ∃ a : DQNServiceAgent θ W,
    (s.round learner cfg sin draw).agent = a.update learner cfg draw ∧ a.policyNet = s.agent.policyNet ∧
      a.targetNet = s.agent.targetNet ∧ a.stepCount = s.agent.stepCount ∧
      a.buffer = dequeAppend cfg.replayCapacity s.agent.buffer (s.transition learner cfg sin draw) := by
  refine ⟨{ (s.agent.selectAction learner cfg s.state draw).1 with
    buffer := dequeAppend cfg.replayCapacity s.agent.buffer (s.transition learner cfg sin draw) },
    ?_, rfl, rfl, rfl, rfl⟩
  unfold Service.round
  rfl

theorem appendAt {history : List Transition} {t u : Transition} {k : Nat} (found : (history ++ [t])[k]? = some u) :
    history[k]? = some u ∨ k = history.length ∧ u = t := by
  rcases Nat.lt_or_ge k history.length with before | after
  · exact .inl (List.getElem?_append_left before ▸ found)
  · rw [List.getElem?_append_right after] at found
    obtain ⟨inside, same⟩ := List.getElem?_eq_some_iff.mp found
    rw [List.length_singleton] at inside
    have zero : k - history.length = 0 := by omega
    simp only [zero, List.getElem_cons_zero] at same
    exact .inr ⟨by omega, same.symm⟩

section Round
variable {policyNet : θ} {rounds : Nat} {s : Service θ W} {history : List Transition} {networks : Nat → θ}
  (story : Story learner cfg sin policyNet rounds s history networks)
include story

theorem linkedNext (draw : Draw) (k : Nat) (t u : Transition)
    (atT : (history ++ [s.transition learner cfg sin draw])[k]? = some t)
    (atU : (history ++ [s.transition learner cfg sin draw])[k + 1]? = some u) : u.state = t.onward sin := by
  rcases appendAt atU with before | ⟨last, rfl⟩
  · have early : k < history.length := Nat.lt_of_succ_lt (List.getElem?_eq_some_iff.mp before).1
    rw [List.getElem?_append_left early] at atT
    exact story.linked k t u atT before
  · rw [List.getElem?_append_left (by omega)] at atT
    have newest : history.getLast? = some t := by
      rw [List.getLast?_eq_getElem?, ← last]
      exact atT
    have now := story.now
    rw [newest] at now
    exact now

theorem firstNext (draw : Draw) (t : Transition)
    (found : (history ++ [s.transition learner cfg sin draw])[0]? = some t) :
    t.state = RateLimitEnv.observe sin .init := by
  rcases appendAt found with before | ⟨last, rfl⟩
  · exact story.first t before
  · have now := story.now
    rw [List.length_eq_zero_iff.mp last.symm] at now
    exact now

theorem learnedBefore {after : Nat → θ} (same : ∀ k, k ≤ s.agent.stepCount → after k = networks k) (t : Transition)
    {k : Nat} (earlier : k < s.agent.stepCount) : ∃ batch : List Transition,
      batch.Subperm (lastOf cfg.replayCapacity ((history ++ [t]).take (k + cfg.batchSize))) ∧
      batch.length = cfg.batchSize ∧
      after (k + 1) = learner.learn (after k) (learner.weights (after (synced cfg k))) batch := by
  obtain ⟨batch, drawn, full, next⟩ := story.learned k earlier
  have early : k + cfg.batchSize ≤ history.length := by
    rw [story.steps] at earlier
    exact story.length ▸ gradientEarly cfg earlier
  rw [List.take_append_of_le_length early, same (k + 1) earlier, same k earlier.le,
    same _ ((syncedBefore cfg k).trans earlier.le)]
  exact ⟨batch, drawn, full, next⟩

theorem storyNext (placed : Placed sin rounds s) {draw : Draw} (fits : draw.Fits cfg) :
    ∃ networks', Story learner cfg sin policyNet (rounds + 1) (s.round learner cfg sin draw)
      (history ++ [s.transition learner cfg sin draw]) networks' := by
  obtain ⟨a, agent, policy, target, steps, buffer⟩ := roundAgent learner cfg sin s draw
  have held : a.buffer = lastOf cfg.replayCapacity (history ++ [s.transition learner cfg sin draw]) := by
    rw [buffer, story.buffer, CbfRuntime.appendLast]
  have size : a.buffer.length = min (rounds + 1) cfg.replayCapacity := by
    rw [held, BoundedRing.lastLength, List.length_append, List.length_singleton, story.length]
  obtain ⟨after, updated⟩ := updateNetworks learner cfg
    (policy.trans (story.policy.trans (congrArg networks steps.symm)))
    (target.trans (story.target.trans (by rw [steps]))) draw
  rw [← agent] at updated
  obtain ⟨same, policy', target', buffer', steps', learned⟩ := updated
  rw [steps] at steps' learned same
  have counted : (s.round learner cfg sin draw).agent.stepCount = gradientSteps cfg (rounds + 1) := by
    rw [steps', size, gradientNext, story.steps]
  have start : after 0 = policyNet := (same 0 (Nat.zero_le _)).trans story.start
  refine ⟨after, ⟨?_, firstNext learner cfg sin story draw, ?_, linkedNext learner cfg sin story draw, ?_,
    buffer'.trans held, counted, start, policy', target', ?_⟩⟩
  · rw [List.length_append, story.length, List.length_singleton]
  · rw [List.getLast?_concat]
    exact (roundPlaced learner cfg sin placed draw).2
  · intro k t found
    rcases appendAt found with before | ⟨last, rfl⟩
    · exact story.experienced k t before
    · rw [last, story.length]
      exact transitionExperienced learner cfg sin placed draw
  · intro k before
    rcases Nat.lt_or_ge k s.agent.stepCount with earlier | now
    · exact learnedBefore learner cfg sin story same _ earlier
    · -- the step of this round draws on the buffer that the new transition has entered
      have enough : ¬ a.buffer.length < cfg.batchSize := by
        intro few
        rw [steps', if_pos few] at before
        omega
      have last : k = s.agent.stepCount := by
        rw [steps', if_neg enough] at before
        omega
      have whole : k + cfg.batchSize = (history ++ [s.transition learner cfg sin draw]).length := by
        rw [List.length_append, List.length_singleton, story.length, last, story.steps]
        exact gradientNow cfg (by omega)
      obtain ⟨drawn, full⟩ := fits a.buffer (Nat.not_lt.mp enough)
      rw [whole, List.take_length, ← held, last, same _ le_rfl, same _ (syncedBefore cfg _)]
      exact ⟨_, drawn, full, learned enough⟩

end Round

theorem startPlaced (policyNet : θ) : Placed sin 0 (Service.start learner cfg sin policyNet) :=
  ⟨rfl, 1000, by norm_num, by norm_num, rfl⟩

theorem startStory (policyNet : θ) :
    Story learner cfg sin policyNet 0 (Service.start learner cfg sin policyNet) [] fun _ => policyNet where
  length := rfl
  first _ found := absurd found nofun
  now := rfl
  linked _ _ _ found := absurd found nofun
  experienced _ _ found := absurd found nofun
  buffer := List.drop_nil.symm
  steps := by
    have batches := cfg.batches
    unfold gradientSteps
    split
    · rw [Nat.sub_eq_zero_of_le batches]
      rfl
    · rfl
  start := rfl
  policy := rfl
  target := rfl
  learned _ before := absurd before (Nat.not_lt_zero _)

variable {policyNets : Nat → θ} {draws : Nat → Nat → Draw}

theorem trainService (steps i : Nat) : (train learner cfg sin policyNets draws (steps + 1))[i]? =
    ((train learner cfg sin policyNets draws steps)[i]?).map fun s => s.round learner cfg sin (draws steps i) := by
  rw [train, List.getElem?_mapIdx]

/-- Every service learns from its own last transitions, in their order, and from nothing else. -/
theorem everyStory (fits : ∀ step i, (draws step i).Fits cfg) (steps : Nat) {i : Nat} {s : Service θ W}
    (found : (train learner cfg sin policyNets draws steps)[i]? = some s) :
    ∃ history networks, Story learner cfg sin (policyNets i) steps s history networks := by
  have told : ∃ history networks,
      Story learner cfg sin (policyNets i) steps s history networks ∧ Placed sin steps s := by
    induction steps generalizing s with
    | zero =>
      rw [train, List.getElem?_map] at found
      obtain ⟨j, at_, same⟩ := Option.map_eq_some_iff.mp found
      obtain ⟨_, same'⟩ := List.getElem?_eq_some_iff.mp at_
      rw [List.getElem_range] at same'
      subst same' same
      exact ⟨[], fun _ => policyNets i, startStory learner cfg sin (policyNets i),
        startPlaced learner cfg sin (policyNets i)⟩
    | succ steps ih =>
      rw [trainService] at found
      obtain ⟨before, at_, rfl⟩ := Option.map_eq_some_iff.mp found
      obtain ⟨history, networks, story, placed⟩ := ih at_
      obtain ⟨networks', next⟩ := storyNext learner cfg sin story placed (fits steps i)
      exact ⟨_, networks', next, (roundPlaced learner cfg sin placed _).1⟩
  obtain ⟨history, networks, story, _⟩ := told
  exact ⟨history, networks, story⟩

end Training

/-! ### Three rounds of two services -/

def small : DQNConfig := ⟨3, 1, 1 / 20, 10, 2, 1, 2, 2, Nat.succ_pos 9, Nat.succ_pos 0, Nat.succ_pos 1⟩

def counting : Learner Nat Nat := ⟨id, fun _ _ => [0, 1, 0], fun θ _ _ => θ + 1⟩

def drawn : Draw := ⟨0, 2, List.take 1⟩

theorem drawnFits : drawn.Fits small := fun buffer enough =>
  ⟨(List.take_sublist 1 buffer).subperm, List.length_take_of_le enough⟩

theorem everyStorySmall : ∃ s : Service Nat Nat,
    (train counting small (fun _ => 0) (fun i => i) (fun _ _ => drawn) 3)[1]? = some s ∧ s.agent.targetNet = 3 ∧
    ∃ history networks, Story counting small (fun _ => 0) 1 3 s history networks := by
  have found : (train counting small (fun _ => 0) (fun i => i) (fun _ _ => drawn) 3)[1]? = some _ := rfl
  exact ⟨_, found, rfl, everyStory counting small (fun _ => 0) (fun _ _ => drawnFits) 3 found⟩

end OmegaLb.DqnTraining
