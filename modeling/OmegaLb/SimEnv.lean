import OmegaLb.StepRun
import Mathlib.Algebra.BigOperators.Fin
import Mathlib.Algebra.BigOperators.Field
import Mathlib.Algebra.Order.BigOperators.Group.Finset
import Mathlib.Algebra.Order.Field.Basic
import Mathlib.Algebra.Order.Field.Rat
import Mathlib.Algebra.Order.Group.MinMax
import Mathlib.Algebra.Group.Int.Even
import Mathlib.Data.Finset.Lattice.Fold
import Mathlib.Data.Fintype.BigOperators
import Mathlib.Data.Rat.Floor
import Mathlib.Tactic.FieldSimp
import Mathlib.Tactic.Linarith
import Mathlib.Tactic.Positivity
import Mathlib.Tactic.Ring

/-! LBSimEnv, once of ml/simulation and once inside train_ppo_kan.py, over exact rationals. What the
random generator draws is an input, sine, cosine and pi are parameters. -/
namespace OmegaLb.SimEnv
open StepRun (Answers Guarded Run)

structure Waves where
  sin : ℚ → ℚ
  cos : ℚ → ℚ
  pi : ℚ

/-! ### Both environments -/

section Shared
variable {n : Nat} [NeZero n]

def npMax (xs : Fin n → ℚ) : ℚ := Finset.univ.sup' Finset.univ_nonempty xs

def npMean (xs : Fin n → ℚ) : ℚ := (∑ i, xs i) / n

def npVar (xs : Fin n → ℚ) : ℚ := npMean fun i => (xs i - npMean xs) ^ 2

def perServer (load capacity : ℚ) : List ℚ :=
  let cpu := load / capacity
  [cpu, load, max 0 (load - 50), cpu * 100, load * 1024, load * 512, 1, max 0 ((cpu - 4 / 5) * (1 / 2))]

/-- `_state`, which is the same in both -/
def observation (w : Waves) (loads capacities : Fin n → ℚ) (stepCount : Nat) : List ℚ :=
  let t : ℚ := stepCount / 2000
  ((List.finRange n).flatMap fun i => perServer (loads i) (capacities i)) ++
    [∑ i, loads i, npMax (fun i => loads i / capacities i) * 200, w.sin (2 * w.pi * t), w.cos (2 * w.pi * t)]

/-- The M/M/1 update. -/
def queued (loads arrivals capacities : Fin n → ℚ) (serviceRate : ℚ) : Fin n → ℚ :=
  fun i => min (max 0 (loads i + arrivals i - serviceRate)) (capacities i * (6 / 5))

structure RewardWeights where
  alpha : ℚ
  beta : ℚ
  gammaR : ℚ
  delta : ℚ

structure Signals (n : Nat) where
  totalRps : ℚ
  cpu : Fin n → ℚ
  p99Ms : ℚ

def Signals.violations (s : Signals n) : Nat := if ∃ i, 1 < s.cpu i then 1 else 0

def RewardWeights.soft (r : RewardWeights) (s : Signals n) : ℚ :=
  -r.alpha * s.p99Ms - r.beta * npVar s.cpu * 100 + r.gammaR * s.totalRps / 10 - r.delta * s.violations

/-! ### The environment of ml/simulation -/

structure SimConfig extends RewardWeights where
  episodeLen : Int
  baseRps : ℚ
  ampRps : ℚ
  rpsPeriod : ℚ
  capacity : ℚ
  serviceRate : ℚ
  hardFloorCpu : ℚ
  hardFloorError : ℚ
  hardFloorP99Ms : ℚ
  deceptiveServers : List Int

structure LBSimEnv (n : Nat) where
  loads : Fin n → ℚ
  capacities : Fin n → ℚ
  stepCount : Nat
  admittedRps : ℚ
  rejectedRps : ℚ

def LBSimEnv.init (cfg : SimConfig) : LBSimEnv n := ⟨fun _ => 0, fun _ => cfg.capacity, 0, 0, 0⟩

def LBSimEnv.state (w : Waves) (env : LBSimEnv n) : List ℚ := observation w env.loads env.capacities env.stepCount

/-- The draws are those of uniform(0, 0.3). -/
def LBSimEnv.reset (w : Waves) (env : LBSimEnv n) (draws : Fin n → ℚ) : LBSimEnv n × List ℚ :=
  let env := { env with loads := fun i => draws i * env.capacities i, stepCount := 0, admittedRps := 0, rejectedRps := 0 }
  (env, env.state w)

def normalised (weights : Fin n → ℚ) : Fin n → ℚ :=
  if ∑ i, weights i < 1 / 10 ^ 9 then fun _ => 1 / n else fun i => weights i / ∑ i, weights i

def deceives (cpu : Fin n → ℚ) (server : Int) (i : Fin n) : Bool := server = (i : Nat) && 3 / 5 < cpu i

def effectiveLatencyMs (cfg : SimConfig) (cpu : Fin n → ℚ) : Fin n → ℚ :=
  cfg.deceptiveServers.foldl (fun latency server i => if deceives cpu server i then cpu i * 1000 else latency i)
    fun i => cpu i * 100

def errorRate (cpu : Fin n → ℚ) : ℚ := npMean fun i => max 0 ((cpu i - 4 / 5) * (1 / 2))

def rejected (arrivals capacities loads : Fin n → ℚ) : ℚ := ∑ i, max 0 (arrivals i - max 0 (capacities i - loads i))

/-- The hard floors of the reward. -/
def SimConfig.floors (cfg : SimConfig) (s : Signals n) : ℚ :=
  (if cfg.hardFloorCpu < npMax s.cpu then 1000 else 0) + (if cfg.hardFloorError < errorRate s.cpu then 500 else 0) +
    (if cfg.hardFloorP99Ms < s.p99Ms then 200 else 0)

def rejectionRate (admittedRps rejectedRps : ℚ) : ℚ := rejectedRps / max (admittedRps + rejectedRps) 1

def hackingPenalty (rate : ℚ) : ℚ := if 3 / 10 < rate then 300 * (rate - 3 / 10) else 0

/-- What a step returns; the entries of info that are not here are functions of these. -/
structure Outcome (n : Nat) where
  state : List ℚ
  reward : ℚ
  terminated : Bool
  truncated : Bool
  signals : Signals n
  rejectionRate : ℚ
  deceptiveServersActive : List Int

def SimConfig.totalRps (cfg : SimConfig) (w : Waves) (stepCount : Nat) : ℚ :=
  cfg.baseRps + cfg.ampRps * w.sin (stepCount / cfg.rpsPeriod)

/-- The noise is the draw of exponential(5). -/
def LBSimEnv.step (cfg : SimConfig) (w : Waves) (env : LBSimEnv n) (weights : Fin n → ℚ) (noise : ℚ) :
    LBSimEnv n × Outcome n :=
  let totalRps := cfg.totalRps w env.stepCount
  let arrivals i := normalised weights i * totalRps
  let loads := queued env.loads arrivals env.capacities cfg.serviceRate
  let cpu i := loads i / env.capacities i
  let signals : Signals n := ⟨totalRps, cpu, npMax (effectiveLatencyMs cfg cpu) + noise⟩
  let admittedRps := 9 / 10 * env.admittedRps + 1 / 10 * ∑ i, arrivals i
  let rejectedRps := 9 / 10 * env.rejectedRps + 1 / 10 * rejected arrivals env.capacities loads
  let rate := rejectionRate admittedRps rejectedRps
  let env : LBSimEnv n := ⟨loads, env.capacities, env.stepCount + 1, admittedRps, rejectedRps⟩
  (env,
    { state := env.state w
      reward := cfg.soft signals - cfg.floors signals - hackingPenalty rate
      terminated := false
      truncated := cfg.episodeLen ≤ env.stepCount
      signals := signals
      rejectionRate := rate
      deceptiveServersActive := cfg.deceptiveServers.filter fun server => decide (∃ i, deceives cpu server i = true) })

def Outcome.done (o : Outcome n) : Bool := o.terminated || o.truncated

def LBSimEnv.stepCompat (cfg : SimConfig) (w : Waves) (env : LBSimEnv n) (weights : Fin n → ℚ) (noise : ℚ) :
    LBSimEnv n × List ℚ × ℚ × Bool :=
  let (env, o) := env.step cfg w weights noise
  (env, o.state, o.reward, o.done)

/-! ### The environment of the trainer -/

structure TrainEnv (n : Nat) where
  loads : Fin n → ℚ
  capacities : Fin n → ℚ
  stepCount : Nat

def TrainEnv.init : TrainEnv n := ⟨fun _ => 0, fun _ => 100, 0⟩

def TrainEnv.state (w : Waves) (env : TrainEnv n) : List ℚ := observation w env.loads env.capacities env.stepCount

def TrainEnv.reset (w : Waves) (env : TrainEnv n) (draws : Fin n → ℚ) : TrainEnv n × List ℚ :=
  let env := { env with loads := fun i => draws i * env.capacities i, stepCount := 0 }
  (env, env.state w)

def TrainEnv.step (cfg : RewardWeights) (w : Waves) (env : TrainEnv n) (weights : Fin n → ℚ) (noise : ℚ) :
    TrainEnv n × List ℚ × ℚ × Bool :=
  let totalRps := 500 + 300 * w.sin (env.stepCount / 100)
  let loads := queued env.loads (fun i => weights i * totalRps) env.capacities 10
  let loadFracs i := loads i / env.capacities i
  let signals : Signals n := ⟨totalRps, loadFracs, npMax loadFracs * 200 + noise⟩
  let env : TrainEnv n := ⟨loads, env.capacities, env.stepCount + 1⟩
  (env, env.state w, cfg.soft signals, decide (2048 ≤ env.stepCount))

/-! ### Calls of either -/

inductive Event (n : Nat) where
  | reset (draws : Fin n → ℚ)
  | step (weights : Fin n → ℚ) (noise : ℚ)

inductive Reply (n : Nat) where
  | fresh (state : List ℚ)
  | stepped (outcome : Outcome n)

def LBSimEnv.exec (cfg : SimConfig) (w : Waves) (env : LBSimEnv n) : Event n → LBSimEnv n × Reply n
  | .reset draws => ((env.reset w draws).1, .fresh (env.reset w draws).2)
  | .step weights noise => ((env.step cfg w weights noise).1, .stepped (env.step cfg w weights noise).2)

inductive TrainReply where
  | fresh (state : List ℚ)
  | stepped (state : List ℚ) (reward : ℚ) (done : Bool)

def TrainEnv.exec (cfg : RewardWeights) (w : Waves) (env : TrainEnv n) : Event n → TrainEnv n × TrainReply
  | .reset draws => ((env.reset w draws).1, .fresh (env.reset w draws).2)
  | .step weights noise =>
    let (env, state, reward, done) := env.step cfg w weights noise
    (env, .stepped state reward done)

/-! ### What is promised -/

/-- The traffic of a SimConfig stays at or above zero. -/
structure Sane (cfg : SimConfig) (w : Waves) : Prop where
  capacity : 0 < cfg.capacity
  period : cfg.rpsPeriod ≠ 0
  swing : |cfg.ampRps| ≤ cfg.baseRps
  sin : ∀ x, |w.sin x| ≤ 1

/-- The draws of the generator are in their ranges, and no weight is negative. -/
def Event.Proper : Event n → Prop
  | .reset draws => ∀ i, 0 ≤ draws i ∧ draws i ≤ 3 / 10
  | .step weights noise => (∀ i, 0 ≤ weights i) ∧ 0 ≤ noise

def ProperCall (_ : LBSimEnv n) (e : Event n × Reply n) : Prop := e.1.Proper

def stepsSince (events : List (Event n)) : Nat :=
  events.foldl (fun steps e => match e with | .reset _ => 0 | .step _ _ => steps + 1) 0

/-- What a step may return that is the given number of steps into its episode. -/
structure Within (cfg : SimConfig) (steps : Nat) (noise : ℚ) (o : Outcome n) : Prop where
  length : o.state.length = n * 8 + 4
  cpu : ∀ i, 0 ≤ o.signals.cpu i ∧ o.signals.cpu i ≤ 6 / 5
  p99Ms : noise ≤ o.signals.p99Ms ∧ o.signals.p99Ms ≤ 1200 + noise
  errors : 0 ≤ errorRate o.signals.cpu ∧ errorRate o.signals.cpu ≤ 1 / 5
  rejection : 0 ≤ o.rejectionRate ∧ o.rejectionRate ≤ 1 / 2
  ends : o.done = decide (cfg.episodeLen ≤ steps)

/-- The two files of the same numbers. -/
structure Mirrors (cfg : SimConfig) (r : RewardWeights) : Prop where
  weights : cfg.toRewardWeights = r
  base : cfg.baseRps = 500
  amp : cfg.ampRps = 300
  period : cfg.rpsPeriod = 100
  capacity : cfg.capacity = 100
  service : cfg.serviceRate = 10
  episode : cfg.episodeLen = 2048
  honest : cfg.deceptiveServers = []

def Event.Whole : Event n → Prop
  | .reset _ => True
  | .step weights _ => ∑ i, weights i = 1

/-- The same states and the same ends; the rewards differ by the slope of the latency, the floors
and the penalty for rejections. -/
def Agree (cfg : SimConfig) : Reply n → TrainReply → Prop
  | .fresh s, .fresh t => s = t
  | .stepped o, .stepped t reward done => o.state = t ∧ o.done = done ∧
    o.reward = reward + cfg.alpha * (npMax o.signals.cpu * 100) - cfg.floors o.signals - hackingPenalty o.rejectionRate
  | _, _ => False

/-! ### Arrays -/

theorem leNpMax (xs : Fin n → ℚ) (i : Fin n) : xs i ≤ npMax xs := Finset.le_sup' xs (Finset.mem_univ i)

theorem npMaxLe {xs : Fin n → ℚ} {b : ℚ} (below : ∀ i, xs i ≤ b) : npMax xs ≤ b :=
  Finset.sup'_le _ _ fun i _ => below i

theorem npMaxRange {xs : Fin n → ℚ} {a b : ℚ} (within : ∀ i, a ≤ xs i ∧ xs i ≤ b) :
    a ≤ npMax xs ∧ npMax xs ≤ b :=
  ⟨(within 0).1.trans (leNpMax xs 0), npMaxLe fun i => (within i).2⟩

theorem npMaxScaled (xs : Fin n → ℚ) : npMax (fun i => xs i * 100) = npMax xs * 100 := by
  obtain ⟨top, _, at_⟩ := Finset.exists_mem_eq_sup' (Finset.univ_nonempty (α := Fin n)) xs
  refine le_antisymm (npMaxLe fun i => ?_) ?_
  · exact mul_le_mul_of_nonneg_right (leNpMax xs i) (by norm_num)
  · rw [npMax, at_]
    exact leNpMax (fun i => xs i * 100) top

theorem npMeanRange {xs : Fin n → ℚ} {a b : ℚ} (within : ∀ i, a ≤ xs i ∧ xs i ≤ b) :
    a ≤ npMean xs ∧ npMean xs ≤ b := by
  have some_ : (0 : ℚ) < n := by exact_mod_cast NeZero.pos n
  have least := Finset.card_nsmul_le_sum Finset.univ xs a fun i _ => (within i).1
  have most := Finset.sum_le_card_nsmul Finset.univ xs b fun i _ => (within i).2
  rw [Finset.card_univ, Fintype.card_fin, nsmul_eq_mul] at least most
  exact ⟨(le_div_iff₀ some_).mpr (by linarith), (div_le_iff₀ some_).mpr (by linarith)⟩

omit [NeZero n] in
theorem normalisedWhole {weights : Fin n → ℚ} (whole : ∑ i, weights i = 1) : normalised weights = weights := by
  unfold normalised
  rw [whole, if_neg (by norm_num)]
  exact funext fun i => div_one _

omit [NeZero n] in
theorem normalisedNonneg {weights : Fin n → ℚ} (nonneg : ∀ i, 0 ≤ weights i) (i : Fin n) :
    0 ≤ normalised weights i := by
  unfold normalised
  split
  · positivity
  · exact div_nonneg (nonneg i) (Finset.sum_nonneg fun j _ => nonneg j)

theorem observationLength (w : Waves) (loads capacities : Fin n → ℚ) (stepCount : Nat) :
    (observation w loads capacities stepCount).length = n * 8 + 4 := by
  have width : ∀ i, (perServer (loads i) (capacities i)).length = 8 := fun i => rfl
  simp [observation, List.length_flatMap, width]

/-! ### The queue -/

omit [NeZero n] in
theorem queuedRange {loads arrivals capacities : Fin n → ℚ} {serviceRate : ℚ} {i : Fin n} (some_ : 0 ≤ capacities i) :
    0 ≤ queued loads arrivals capacities serviceRate i ∧
      queued loads arrivals capacities serviceRate i ≤ capacities i * (6 / 5) :=
  ⟨le_min (le_max_left _ _) (by positivity), min_le_right _ _⟩

/-- Of two backends with the same arrivals and capacity, the loads do not move apart. -/
theorem clampedCloser (x y c : ℚ) : |min (max 0 x) c - min (max 0 y) c| ≤ |x - y| :=
  (abs_min_sub_min_le_max _ _ _ _).trans (max_le
    ((abs_max_sub_max_le_max _ _ _ _).trans (max_le (by simp) le_rfl)) (by simp))

/-! ### The signals -/

omit [NeZero n] in
theorem latencyRange {cfg : SimConfig} {cpu : Fin n → ℚ} (within : ∀ i, 0 ≤ cpu i ∧ cpu i ≤ 6 / 5) (i : Fin n) :
    0 ≤ effectiveLatencyMs cfg cpu i ∧ effectiveLatencyMs cfg cpu i ≤ 1200 := by
  have spiked : ∀ latency : Fin n → ℚ, (∀ i, 0 ≤ latency i ∧ latency i ≤ 1200) → ∀ server ∈ cfg.deceptiveServers,
      ∀ i, 0 ≤ (if deceives cpu server i then cpu i * 1000 else latency i) ∧
        (if deceives cpu server i then cpu i * 1000 else latency i) ≤ 1200 := by
    intro latency before server _ i
    obtain ⟨low, high⟩ := within i
    split
    · constructor <;> linarith
    · exact before i
  unfold effectiveLatencyMs
  refine List.foldlRecOn cfg.deceptiveServers _
    (motive := fun latency : Fin n → ℚ => ∀ i, 0 ≤ latency i ∧ latency i ≤ 1200) (fun i => ?_) spiked i
  obtain ⟨low, high⟩ := within i
  constructor <;> linarith

theorem errorRange {cpu : Fin n → ℚ} (within : ∀ i, 0 ≤ cpu i ∧ cpu i ≤ 6 / 5) :
    0 ≤ errorRate cpu ∧ errorRate cpu ≤ 1 / 5 :=
  npMeanRange fun i => ⟨le_max_left _ _, max_le (by norm_num) (by linarith [(within i).2])⟩

omit [NeZero n] in
theorem rejectedRange {arrivals capacities loads : Fin n → ℚ} (nonneg : ∀ i, 0 ≤ arrivals i) :
    0 ≤ rejected arrivals capacities loads ∧ rejected arrivals capacities loads ≤ ∑ i, arrivals i := by
  refine ⟨Finset.sum_nonneg fun i _ => le_max_left _ _, Finset.sum_le_sum fun i _ => max_le (nonneg i) ?_⟩
  linarith [le_max_left 0 (capacities i - loads i)]

theorem rejectionRange {admittedRps rejectedRps : ℚ} (low : 0 ≤ rejectedRps) (among : rejectedRps ≤ admittedRps) :
    0 ≤ rejectionRate admittedRps rejectedRps ∧ rejectionRate admittedRps rejectedRps ≤ 1 / 2 := by
  have positive : 0 < max (admittedRps + rejectedRps) 1 := lt_of_lt_of_le one_pos (le_max_right _ _)
  refine ⟨div_nonneg low positive.le, (div_le_iff₀ positive).mpr ?_⟩
  linarith [le_max_left (admittedRps + rejectedRps) 1]

theorem totalNonneg {cfg : SimConfig} {w : Waves} (sane : Sane cfg w) (stepCount : Nat) : 0 ≤ cfg.totalRps w stepCount := by
  have small : |cfg.ampRps * w.sin (stepCount / cfg.rpsPeriod)| ≤ cfg.baseRps := by
    rw [abs_mul]
    exact (mul_le_of_le_one_right (abs_nonneg _) (sane.sin _)).trans sane.swing
  have low := (abs_le.mp small).1
  unfold SimConfig.totalRps
  linarith

/-! ### One call -/

structure Kept (cfg : SimConfig) (env : LBSimEnv n) : Prop where
  capacities : env.capacities = fun _ => cfg.capacity
  loads : ∀ i, 0 ≤ env.loads i ∧ env.loads i ≤ cfg.capacity * (6 / 5)
  rejected : 0 ≤ env.rejectedRps ∧ env.rejectedRps ≤ env.admittedRps

omit [NeZero n] in
theorem keptStart {cfg : SimConfig} {w : Waves} (sane : Sane cfg w) : Kept cfg (LBSimEnv.init cfg : LBSimEnv n) :=
  ⟨rfl, fun _ => ⟨le_rfl, mul_nonneg sane.capacity.le (by norm_num)⟩, le_rfl, le_rfl⟩

theorem resetKept {cfg : SimConfig} {w : Waves} (sane : Sane cfg w) {env : LBSimEnv n} (kept : Kept cfg env)
    {draws : Fin n → ℚ} (proper : ∀ i, 0 ≤ draws i ∧ draws i ≤ 3 / 10) : Kept cfg (env.reset w draws).1 := by
  refine ⟨kept.capacities, fun i => ?_, le_rfl, le_rfl⟩
  have positive := sane.capacity
  obtain ⟨low, high⟩ := proper i
  simp only [LBSimEnv.reset, kept.capacities]
  constructor
  · positivity
  · nlinarith

omit [NeZero n] in
theorem cpuRange {cfg : SimConfig} {w : Waves} (sane : Sane cfg w) {env : LBSimEnv n} (kept : Kept cfg env) (i : Fin n) :
    0 ≤ env.loads i / env.capacities i ∧ env.loads i / env.capacities i ≤ 6 / 5 := by
  obtain ⟨low, high⟩ := kept.loads i
  rw [kept.capacities]
  exact ⟨div_nonneg low sane.capacity.le, (div_le_iff₀ sane.capacity).mpr (by linarith)⟩

theorem stepKept {cfg : SimConfig} {w : Waves} (sane : Sane cfg w) {env : LBSimEnv n} (kept : Kept cfg env)
    {weights : Fin n → ℚ} (nonneg : ∀ i, 0 ≤ weights i) (noise : ℚ) :
    Kept cfg (env.step cfg w weights noise).1 := by
  have arrivals : ∀ i, 0 ≤ normalised weights i * cfg.totalRps w env.stepCount := fun i =>
    mul_nonneg (normalisedNonneg nonneg i) (totalNonneg sane _)
  let loads := queued env.loads (fun i => normalised weights i * cfg.totalRps w env.stepCount) env.capacities cfg.serviceRate
  have turnedAway : 0 ≤ rejected (fun i => normalised weights i * cfg.totalRps w env.stepCount) env.capacities loads ∧
      rejected (fun i => normalised weights i * cfg.totalRps w env.stepCount) env.capacities loads ≤
        ∑ i, normalised weights i * cfg.totalRps w env.stepCount := rejectedRange arrivals
  obtain ⟨low, among⟩ := turnedAway
  obtain ⟨before, below⟩ := kept.rejected
  refine ⟨kept.capacities, fun i => ?_, ?_, ?_⟩
  · have some_ : 0 ≤ env.capacities i := by
      rw [kept.capacities]
      exact sane.capacity.le
    have range : 0 ≤ loads i ∧ loads i ≤ env.capacities i * (6 / 5) := queuedRange some_
    rw [show env.capacities i = cfg.capacity from congrFun kept.capacities i] at range
    exact range
  · simp only [LBSimEnv.step]
    linarith
  · simp only [LBSimEnv.step]
    linarith

section Step
variable (cfg : SimConfig) (w : Waves) (env : LBSimEnv n) (weights : Fin n → ℚ) (noise : ℚ)

theorem stepCpu (i : Fin n) : (env.step cfg w weights noise).2.signals.cpu i =
    (env.step cfg w weights noise).1.loads i / (env.step cfg w weights noise).1.capacities i := by
  simp only [LBSimEnv.step]

theorem stepP99 : (env.step cfg w weights noise).2.signals.p99Ms =
    npMax (effectiveLatencyMs cfg (env.step cfg w weights noise).2.signals.cpu) + noise := by
  simp only [LBSimEnv.step]

theorem stepRejection : (env.step cfg w weights noise).2.rejectionRate =
    rejectionRate (env.step cfg w weights noise).1.admittedRps (env.step cfg w weights noise).1.rejectedRps := by
  simp only [LBSimEnv.step]

theorem stepDone : (env.step cfg w weights noise).2.done = decide (cfg.episodeLen ≤ (env.stepCount + 1 : Nat)) := by
  simp only [LBSimEnv.step, Outcome.done, Bool.false_or]

theorem stepLength : (env.step cfg w weights noise).2.state.length = n * 8 + 4 := by
  simp only [LBSimEnv.step, LBSimEnv.state]
  exact observationLength ..

end Step

theorem stepWithin {cfg : SimConfig} {w : Waves} (sane : Sane cfg w) {env : LBSimEnv n} (kept : Kept cfg env)
    {weights : Fin n → ℚ} (nonneg : ∀ i, 0 ≤ weights i) (noise : ℚ) :
    Within cfg (env.stepCount + 1) noise (env.step cfg w weights noise).2 := by
  have next := stepKept sane kept nonneg noise
  have cpu : ∀ i, 0 ≤ (env.step cfg w weights noise).2.signals.cpu i ∧
      (env.step cfg w weights noise).2.signals.cpu i ≤ 6 / 5 := by
    intro i
    rw [stepCpu]
    exact cpuRange sane next i
  refine ⟨stepLength .., cpu, ?_, errorRange cpu, ?_, stepDone ..⟩
  · obtain ⟨low, high⟩ : _ ≤ npMax (effectiveLatencyMs cfg _) ∧ npMax (effectiveLatencyMs cfg _) ≤ _ :=
      npMaxRange (latencyRange cpu)
    rw [stepP99]
    constructor <;> linarith
  · rw [stepRejection]
    exact rejectionRange next.rejected.1 next.rejected.2

/-! ### Every episode -/

structure Tracked (cfg : SimConfig) (calls : List (Event n × Reply n)) (env : LBSimEnv n) : Prop where
  kept : Kept cfg env
  steps : env.stepCount = stepsSince (calls.map Prod.fst)

omit [NeZero n] in
theorem stepsSinceSnoc (events : List (Event n)) (e : Event n) : stepsSince (events ++ [e]) =
    match e with | .reset _ => 0 | .step _ _ => stepsSince events + 1 := by
  rw [stepsSince, List.foldl_append]
  rfl

theorem trackedNext {cfg : SimConfig} {w : Waves} (sane : Sane cfg w) (calls : List (Event n × Reply n)) (env : LBSimEnv n)
    (call : Event n × Reply n) (next : LBSimEnv n) (tracked : Tracked cfg calls env)
    (taken : Guarded ProperCall (Answers (LBSimEnv.exec cfg w)) env call next) : Tracked cfg (calls ++ [call]) next := by
  obtain ⟨proper, did⟩ := taken
  obtain ⟨event, reply⟩ := call
  cases event with
  | reset draws =>
    cases did
    refine ⟨resetKept sane tracked.kept proper, ?_⟩
    rw [List.map_append, List.map_singleton, stepsSinceSnoc]
    rfl
  | step weights noise =>
    cases did
    refine ⟨stepKept sane tracked.kept proper.1 noise, ?_⟩
    rw [List.map_append, List.map_singleton, stepsSinceSnoc]
    exact congrArg (· + 1) tracked.steps

/-- However the weights are chosen, every step of every episode stays in range, and the episode ends
with the step that its length says. -/
theorem episodesBounded {cfg : SimConfig} {w : Waves} (sane : Sane cfg w) {calls : List (Event n × Reply n)}
    {env : LBSimEnv n} (run : Run (Guarded ProperCall (Answers (LBSimEnv.exec cfg w))) (.init cfg) calls env)
    {weights : Fin n → ℚ} (nonneg : ∀ i, 0 ≤ weights i) (noise : ℚ) :
    Within cfg (stepsSince (calls.map Prod.fst) + 1) noise (env.step cfg w weights noise).2 := by
  have start : Tracked cfg [] (LBSimEnv.init cfg : LBSimEnv n) := ⟨keptStart sane, rfl⟩
  have tracked := StepRun.runTrace (trackedNext sane) run [] start
  rw [List.nil_append] at tracked
  rw [← tracked.steps]
  exact stepWithin sane tracked.kept nonneg noise

/-! ### Even weights -/

def EvenCall (i j : Fin n) (env : LBSimEnv n) (call : Event n × Reply n) : Prop :=
  ProperCall env call ∧ match call.1 with
    | .reset _ => True
    | .step weights _ => weights i = weights j

def Close (cfg : SimConfig) (i j : Fin n) (env : LBSimEnv n) : Prop :=
  env.capacities = (fun _ => cfg.capacity) ∧ |env.loads i - env.loads j| ≤ cfg.capacity * (3 / 10)

omit [NeZero n] in
theorem normalisedEven {weights : Fin n → ℚ} {i j : Fin n} (even_ : weights i = weights j) :
    normalised weights i = normalised weights j := by
  unfold normalised
  split
  · rfl
  · exact congrArg (· / _) even_

theorem closeNext {cfg : SimConfig} {w : Waves} (positive : 0 < cfg.capacity) (i j : Fin n) (env : LBSimEnv n)
    (call : Event n × Reply n) (next : LBSimEnv n) (close : Close cfg i j env) (even_ : EvenCall i j env call)
    (taken : Answers (LBSimEnv.exec cfg w) env call next) : Close cfg i j next := by
  obtain ⟨capacities, near⟩ := close
  obtain ⟨event, reply⟩ := call
  cases event with
  | reset draws =>
    cases taken
    refine ⟨capacities, ?_⟩
    have first := even_.1 i
    have second := even_.1 j
    have apart : |draws i - draws j| ≤ 3 / 10 := abs_le.mpr ⟨by linarith, by linarith⟩
    simp only [LBSimEnv.reset, capacities]
    rw [← sub_mul, abs_mul, abs_of_pos positive, mul_comm]
    exact mul_le_mul_of_nonneg_left apart positive.le
  | step weights noise =>
    cases taken
    refine ⟨capacities, ?_⟩
    simp only [LBSimEnv.step, queued, capacities, normalisedEven even_.2]
    refine (clampedCloser _ _ _).trans ?_
    rwa [sub_sub_sub_cancel_right, add_sub_add_right_eq_sub]

/-- Backends that always get the same weight stay as close as a reset can set them apart. -/
theorem spreadBounded {cfg : SimConfig} {w : Waves} (positive : 0 < cfg.capacity) {i j : Fin n}
    {calls : List (Event n × Reply n)} {env : LBSimEnv n}
    (run : Run (Guarded (EvenCall i j) (Answers (LBSimEnv.exec cfg w))) (.init cfg) calls env) :
    |env.loads i / env.capacities i - env.loads j / env.capacities j| ≤ 3 / 10 := by
  have start : Close cfg i j (LBSimEnv.init cfg) := by
    refine ⟨rfl, ?_⟩
    simp only [LBSimEnv.init, sub_self, abs_zero]
    positivity
  obtain ⟨capacities, near⟩ := StepRun.guardedInvariant (closeNext positive i j) run start
  rw [capacities, ← sub_div, abs_div, abs_of_pos positive]
  exact (div_le_iff₀ positive).mpr (by linarith)

/-! ### Two environments -/

structure Twins (a : LBSimEnv n) (b : TrainEnv n) : Prop where
  loads : a.loads = b.loads
  capacities : a.capacities = b.capacities
  steps : a.stepCount = b.stepCount

omit [NeZero n] in
theorem honestLatency {cfg : SimConfig} (honest : cfg.deceptiveServers = []) (cpu : Fin n → ℚ) :
    effectiveLatencyMs cfg cpu = fun i => cpu i * 100 := by
  rw [effectiveLatencyMs, honest]
  rfl

theorem stepAgree {cfg : SimConfig} {r : RewardWeights} (mirrors : Mirrors cfg r) (w : Waves) {a : LBSimEnv n}
    {b : TrainEnv n} (twins : Twins a b) {weights : Fin n → ℚ} (whole : ∑ i, weights i = 1) (noise : ℚ) :
    Twins (a.step cfg w weights noise).1 (b.step r w weights noise).1 ∧
      Agree cfg (.stepped (a.step cfg w weights noise).2) (b.exec r w (.step weights noise)).2 := by
  obtain ⟨loads, capacities, steps⟩ := twins
  have rps : cfg.totalRps w b.stepCount = 500 + 300 * w.sin (b.stepCount / 100) := by
    rw [SimConfig.totalRps, mirrors.base, mirrors.amp, mirrors.period]
  have next : Twins (a.step cfg w weights noise).1 (b.step r w weights noise).1 := by
    refine ⟨?_, capacities, congrArg (· + 1) steps⟩
    simp only [LBSimEnv.step, TrainEnv.step, normalisedWhole whole, steps, rps, loads, capacities, mirrors.service]
  refine ⟨next, ?_, ?_, ?_⟩
  · simp only [LBSimEnv.step, LBSimEnv.state, TrainEnv.state, normalisedWhole whole, steps, rps, loads,
      capacities, mirrors.service]
  · rw [stepDone, mirrors.episode, steps]
    norm_cast
  · simp only [LBSimEnv.step, normalisedWhole whole, steps, rps, loads, capacities, mirrors.service,
      honestLatency mirrors.honest, npMaxScaled, RewardWeights.soft, Signals.violations, ← mirrors.weights]
    ring

theorem eventAgree {cfg : SimConfig} {r : RewardWeights} (mirrors : Mirrors cfg r) (w : Waves) {a : LBSimEnv n}
    {b : TrainEnv n} (twins : Twins a b) {e : Event n} (whole : e.Whole) :
    Twins (a.exec cfg w e).1 (b.exec r w e).1 ∧ Agree cfg (a.exec cfg w e).2 (b.exec r w e).2 := by
  cases e with
  | reset draws =>
    obtain ⟨loads, capacities, steps⟩ := twins
    refine ⟨⟨?_, capacities, rfl⟩, ?_⟩
    · simp only [LBSimEnv.exec, LBSimEnv.reset, TrainEnv.exec, TrainEnv.reset, capacities]
    · simp only [Agree, LBSimEnv.exec, LBSimEnv.reset, LBSimEnv.state, TrainEnv.exec, TrainEnv.reset, TrainEnv.state,
        capacities]
  | step weights noise => exact stepAgree mirrors w twins whole noise

theorem twinsAgree {cfg : SimConfig} {r : RewardWeights} (mirrors : Mirrors cfg r) (w : Waves) {events : List (Event n)}
    (whole : ∀ e ∈ events, e.Whole) {a : LBSimEnv n} {b : TrainEnv n} (twins : Twins a b) :
    List.Forall₂ (fun p q => Agree cfg p.2 q.2) (StepRun.perform (LBSimEnv.exec cfg w) a events).1
      (StepRun.perform (TrainEnv.exec r w) b events).1 := by
  induction events generalizing a b with
  | nil => exact .nil
  | cons e events ih =>
    obtain ⟨next, agree⟩ := eventAgree mirrors w twins (whole e List.mem_cons_self)
    exact .cons agree (ih (fun f inside => whole f (List.mem_cons_of_mem e inside)) next)

/-- Fed the same draws and the same distributions, the two environments go through the same states. -/
theorem environmentsAgree {cfg : SimConfig} {r : RewardWeights} (mirrors : Mirrors cfg r) (w : Waves)
    {events : List (Event n)} (whole : ∀ e ∈ events, e.Whole) :
    List.Forall₂ (fun p q => Agree cfg p.2 q.2) (StepRun.perform (LBSimEnv.exec cfg w) (.init cfg) events).1
      (StepRun.perform (TrainEnv.exec r w) .init events).1 := by
  refine twinsAgree mirrors w whole ⟨rfl, ?_, rfl⟩
  simp only [LBSimEnv.init, TrainEnv.init, mirrors.capacity]

end Shared

/-! ### The configuration of the tests -/

def shipped (r : RewardWeights) : SimConfig where
  toRewardWeights := r
  episodeLen := 2048
  baseRps := 500
  ampRps := 300
  rpsPeriod := 100
  capacity := 100
  serviceRate := 10
  hardFloorCpu := 19 / 20
  hardFloorError := 1 / 100
  hardFloorP99Ms := 500
  deceptiveServers := []

def trained : RewardWeights := ⟨1 / 2, 3 / 10, 1 / 5, 1000⟩

/-- Half a wave, between 0 and 1, to within two thousandths of the sine. -/
def arch (u : ℚ) : ℚ := 16 * (u * (1 - u)) / (5 - 4 * (u * (1 - u)))

def halfWave : ℚ := 355 / 113

def sine (x : ℚ) : ℚ :=
  let u := Int.fract (x / halfWave)
  if Even ⌊x / halfWave⌋ then arch u else -arch u

def approximate : Waves := ⟨sine, fun x => sine (x + halfWave / 2), halfWave⟩

theorem archBound {u : ℚ} (low : 0 ≤ u) (high : u ≤ 1) : |arch u| ≤ 1 := by
  have nonneg : 0 ≤ u * (1 - u) := mul_nonneg low (by linarith)
  have most : u * (1 - u) ≤ 1 / 4 := by nlinarith only [sq_nonneg (u - 1 / 2)]
  have below : 0 < 5 - 4 * (u * (1 - u)) := by linarith
  rw [arch, abs_of_nonneg (by positivity), div_le_one below]
  linarith

theorem sineBound (x : ℚ) : |sine x| ≤ 1 := by
  have bound := archBound (Int.fract_nonneg (x / halfWave)) (Int.fract_lt_one (x / halfWave)).le
  unfold sine
  dsimp only
  split
  · exact bound
  · rwa [abs_neg]

theorem shippedSane (r : RewardWeights) : Sane (shipped r) approximate :=
  ⟨by norm_num [shipped], by norm_num [shipped], by norm_num [shipped, abs_of_pos], sineBound⟩

def skewed (i : Fin 4) : ℚ := if i.val = 0 then 3 / 10 else 0

theorem skewedDrawn (i : Fin 4) : 0 ≤ skewed i ∧ skewed i ≤ 3 / 10 := by
  unfold skewed
  split <;> norm_num

def first : List (Event 4) := [.reset skewed, .step (fun _ => 1 / 4) 5]

theorem quarterProper : (Event.step (fun _ => 1 / 4) 5 : Event 4).Proper := ⟨fun _ => by norm_num, by norm_num⟩

def firstCalls : List (Event 4 × Reply 4) :=
  (StepRun.perform (LBSimEnv.exec (shipped trained) approximate) (.init (shipped trained)) first).1

theorem firstProper : Run (Guarded ProperCall (Answers (LBSimEnv.exec (shipped trained) approximate))) (.init (shipped trained))
    firstCalls (StepRun.perform (LBSimEnv.exec (shipped trained) approximate) (.init (shipped trained)) first).2 :=
  StepRun.performRun ⟨skewedDrawn, quarterProper, trivial⟩

theorem episodesBoundedFirst : ∃ env : LBSimEnv 4,
    Run (Guarded ProperCall (Answers (LBSimEnv.exec (shipped trained) approximate))) (.init (shipped trained)) firstCalls env ∧
    Within (shipped trained) (stepsSince (firstCalls.map Prod.fst) + 1) 5 (env.step (shipped trained) approximate (fun _ => 1) 5).2 :=
  ⟨_, firstProper, episodesBounded (shippedSane trained) firstProper (fun _ => by norm_num) 5⟩

theorem firstEven : Run (Guarded (EvenCall 0 3) (Answers (LBSimEnv.exec (shipped trained) approximate))) (.init (shipped trained))
    firstCalls (StepRun.perform (LBSimEnv.exec (shipped trained) approximate) (.init (shipped trained)) first).2 :=
  StepRun.performRun ⟨⟨skewedDrawn, trivial⟩, ⟨quarterProper, rfl⟩, trivial⟩

theorem spreadBoundedFirst : ∃ env : LBSimEnv 4,
    Run (Guarded (EvenCall 0 3) (Answers (LBSimEnv.exec (shipped trained) approximate))) (.init (shipped trained)) firstCalls env ∧
    |env.loads 0 / env.capacities 0 - env.loads 3 / env.capacities 3| ≤ 3 / 10 :=
  ⟨_, firstEven, spreadBounded (by norm_num [shipped]) firstEven⟩

theorem environmentsAgreeFirst : List.Forall₂ (fun p q => Agree (shipped trained) p.2 q.2)
    (StepRun.perform (LBSimEnv.exec (shipped trained) approximate) (.init (shipped trained)) first).1
    (StepRun.perform (TrainEnv.exec trained approximate) .init first).1 := by
  refine environmentsAgree ⟨rfl, rfl, rfl, rfl, rfl, rfl, rfl, rfl⟩ approximate fun e inside => ?_
  rcases List.mem_pair.mp inside with rfl | rfl
  · trivial
  · norm_num [Event.Whole]

end OmegaLb.SimEnv
