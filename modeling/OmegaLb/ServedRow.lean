import OmegaLb.KanInference
import OmegaLb.SimEnv

/-! The row that _infer_onnx gives the model beside the row that LBSimEnv gave it in training, where the
backends are loaded alike. Its docstring has them the same. -/
namespace OmegaLb.ServedRow
open KanInference (Backend features stateRow flag)
open SimEnv (LBSimEnv SimConfig Waves Sane Event Reply ProperCall Kept perServer observation)
open StepRun (Answers Guarded Run)

variable {n : Nat}

/-- A backend of that load, as infer is told of it. -/
def seen (load capacity : ℚ) : Backend ℚ where
  cpu := load / capacity
  latMs := load / capacity * 100
  err := max 0 ((load / capacity - 4 / 5) * (1 / 2))
  health := true

def fleet (env : LBSimEnv n) : List (Backend ℚ) :=
  (List.finRange n).map fun i => seen (env.loads i) (env.capacities i)

def row : Reply n → List ℚ
  | .fresh state => state
  | .stepped outcome => outcome.state

def tenfold : List ℚ → List ℚ
  | cpu :: conns :: rest => cpu :: 10 * conns :: rest
  | short => short

/-- The same blocks but for the connections, ten times the requests, half the latency. -/
structure Skewed (n : Nat) (trained served : List ℚ) (sinT cosT : ℚ) : Prop where
  rows : ∃ (blocks : Fin n → List ℚ) (total p99 timeSin timeCos : ℚ), (∀ i, (blocks i).length = 8) ∧
    trained = (List.finRange n).flatMap blocks ++ [total, p99, timeSin, timeCos] ∧
    served = ((List.finRange n).flatMap fun i => tenfold (blocks i)) ++ [10 * total, p99 / 2, sinT, cosT]

theorem maxScaled (k : ℚ) (positive : 0 ≤ k) (x : ℚ) : max 0 (k * x) = k * max 0 x := by
  rw [mul_max_of_nonneg _ _ positive, mul_zero]

theorem featuresTenfold (load : ℚ) : features (seen load 100) = tenfold (perServer load 100) := by
  have queue : max 0 (load / 100 - 1 / 2) * 100 = max 0 (load - 50) := by
    have scaled : load - 50 = 100 * (load / 100 - 1 / 2) := by ring
    rw [scaled, maxScaled 100 (by norm_num), mul_comm]
  unfold features seen perServer tenfold flag
  simp only [if_true, queue, List.cons.injEq, and_true, true_and]
  refine ⟨?_, ?_, ?_⟩ <;> ring

theorem sumFleet (xs : Fin n → ℚ) : ((List.finRange n).map xs).sum = ∑ i, xs i := by
  rw [Fin.sum_univ_def]

theorem npMaxList (xs : List ℚ) : KanInference.npMax xs = xs.max? := by
  cases xs <;> rfl

theorem maxFleet [NeZero n] (xs : Fin n → ℚ) :
    KanInference.npMax ((List.finRange n).map xs) = some (SimEnv.npMax xs) := by
  obtain ⟨top, _, at_⟩ := Finset.exists_mem_eq_sup' (Finset.univ_nonempty (α := Fin n)) xs
  rw [npMaxList, List.max?_eq_some_iff]
  refine ⟨List.mem_map.mpr ⟨top, List.mem_finRange top, at_.symm⟩, fun x inside => ?_⟩
  obtain ⟨i, _, rfl⟩ := List.mem_map.mp inside
  exact SimEnv.leNpMax xs i

/-! ### The row that is served -/

section Row
variable [NeZero n] {env : LBSimEnv n} (capacities : env.capacities = fun _ => 100)
include capacities

theorem rowServed (sinT cosT : ℚ) : stateRow (fleet env) sinT cosT =
    some (((List.finRange n).flatMap fun i => tenfold (perServer (env.loads i) 100)) ++
      [10 * ∑ i, env.loads i, SimEnv.npMax (fun i => env.loads i / 100 * 100), sinT, cosT]) := by
  have blocks : (fleet env).flatMap features =
      (List.finRange n).flatMap fun i => tenfold (perServer (env.loads i) 100) := by
    rw [fleet, List.flatMap_map]
    simp only [capacities, featuresTenfold]
  have cpus : ((fleet env).map Backend.cpu).sum * 1000 = 10 * ∑ i, env.loads i := by
    rw [fleet, List.map_map, Function.comp_def, sumFleet]
    simp only [seen, capacities]
    rw [← Finset.sum_div]
    ring
  have latencies : KanInference.npMax ((fleet env).map Backend.latMs) =
      some (SimEnv.npMax fun i => env.loads i / 100 * 100) := by
    rw [fleet, List.map_map, Function.comp_def, maxFleet]
    simp only [seen, capacities]
  unfold stateRow
  rw [blocks, cpus, latencies]
  rfl

theorem rowTrained (w : Waves) : env.state w = ((List.finRange n).flatMap fun i => perServer (env.loads i) 100) ++
    [∑ i, env.loads i, SimEnv.npMax (fun i => env.loads i / 100) * 200,
      w.sin (2 * w.pi * (env.stepCount / 2000)), w.cos (2 * w.pi * (env.stepCount / 2000))] := by
  unfold LBSimEnv.state observation
  simp only [capacities]

theorem rowSkewed (w : Waves) (sinT cosT : ℚ) :
    ∃ served, stateRow (fleet env) sinT cosT = some served ∧ Skewed n (env.state w) served sinT cosT := by
  refine ⟨_, rowServed capacities sinT cosT, ⟨fun i => perServer (env.loads i) 100, _, _, _, _, fun _ => rfl,
    rowTrained capacities w, ?_⟩⟩
  rw [SimEnv.npMaxScaled fun i => env.loads i / 100]
  congr 2
  ring_nf

/-- The two rows are one row where nothing is loaded, at the same time of day, and nowhere else. -/
theorem rowMeets (loads : ∀ i, 0 ≤ env.loads i) (w : Waves) (sinT cosT : ℚ) :
    stateRow (fleet env) sinT cosT = some (env.state w) ↔ (∀ i, env.loads i = 0) ∧
      sinT = w.sin (2 * w.pi * (env.stepCount / 2000)) ∧ cosT = w.cos (2 * w.pi * (env.stepCount / 2000)) := by
  rw [rowServed capacities, rowTrained capacities, Option.some.injEq]
  constructor
  · intro same
    have tails := (List.append_inj' same rfl).2
    simp only [List.cons.injEq, and_true] at tails
    obtain ⟨total, -, timeSin, timeCos⟩ := tails
    have nothing : ∑ i, env.loads i = 0 := by linarith
    have idle := (Finset.sum_eq_zero_iff_of_nonneg fun i _ => loads i).mp nothing
    exact ⟨fun i => idle i (Finset.mem_univ i), timeSin, timeCos⟩
  · rintro ⟨idle, rfl, rfl⟩
    have top : SimEnv.npMax (fun i : Fin n => env.loads i / 100) = 0 := by
      have each : ∀ i, 0 ≤ env.loads i / 100 ∧ env.loads i / 100 ≤ 0 := fun i => by
        rw [idle i, zero_div]
        exact ⟨le_rfl, le_rfl⟩
      have range := SimEnv.npMaxRange each
      exact le_antisymm range.2 range.1
    rw [SimEnv.npMaxScaled fun i => env.loads i / 100, top]
    simp only [idle, tenfold, perServer, mul_zero, zero_mul, Finset.sum_const_zero]

end Row

/-! ### In every episode -/

theorem runKept {cfg : SimConfig} {w : Waves} [NeZero n] (sane : Sane cfg w) {calls : List (Event n × Reply n)}
    {env : LBSimEnv n} (run : Run (Guarded ProperCall (Answers (LBSimEnv.exec cfg w))) (.init cfg) calls env) :
    Kept cfg env :=
  (StepRun.runTrace (SimEnv.trackedNext sane) run [] ⟨SimEnv.keptStart sane, rfl⟩).kept

theorem rowReturned {cfg : SimConfig} {w : Waves} [NeZero n] {env next : LBSimEnv n} {call : Event n × Reply n}
    (taken : Answers (LBSimEnv.exec cfg w) env call next) : row call.2 = next.state w := by
  obtain ⟨event, reply⟩ := call
  cases event <;> cases taken <;> rfl

/-- What the model is given in service is never what training gave it of the same fleet, but for an idle one. -/
theorem neverTrained {cfg : SimConfig} {w : Waves} [NeZero n] (sane : Sane cfg w) (hundred : cfg.capacity = 100)
    {calls : List (Event n × Reply n)} {last : Event n × Reply n} {env : LBSimEnv n}
    (run : Run (Guarded ProperCall (Answers (LBSimEnv.exec cfg w))) (.init cfg) (calls ++ [last]) env)
    (sinT cosT : ℚ) :
    (∃ served, stateRow (fleet env) sinT cosT = some served ∧ Skewed n (row last.2) served sinT cosT) ∧
      (stateRow (fleet env) sinT cosT = some (row last.2) ↔ (∀ i, env.loads i = 0) ∧
        sinT = w.sin (2 * w.pi * (env.stepCount / 2000)) ∧ cosT = w.cos (2 * w.pi * (env.stepCount / 2000))) := by
  have kept := runKept sane run
  have capacities : env.capacities = fun _ => 100 := kept.capacities.trans (funext fun _ => hundred)
  obtain ⟨before, _, final⟩ := StepRun.runSplit run
  cases final with
  | cons taken ended =>
    cases ended
    rw [rowReturned taken.2]
    exact ⟨rowSkewed capacities w sinT cosT, rowMeets capacities (fun i => (kept.loads i).1) w sinT cosT⟩

/-! #### After one reset -/

theorem openedRun : ∃ (env : LBSimEnv 4) (reply : Reply 4), env.loads 0 = 30 ∧
    Run (Guarded ProperCall (Answers (LBSimEnv.exec (SimEnv.shipped SimEnv.trained) SimEnv.approximate)))
      (.init (SimEnv.shipped SimEnv.trained)) ([] ++ [(.reset SimEnv.skewed, reply)]) env := by
  refine ⟨_, _, ?_, .cons ⟨SimEnv.skewedDrawn, rfl⟩ (.nil _)⟩
  norm_num [LBSimEnv.exec, LBSimEnv.reset, LBSimEnv.init, SimEnv.shipped, SimEnv.skewed]

theorem neverTrainedReset : ∃ (env : LBSimEnv 4) (reply : Reply 4), env.loads 0 = 30 ∧
    stateRow (fleet env) 0 1 ≠ some (row reply) := by
  obtain ⟨env, reply, loaded, run⟩ := openedRun
  refine ⟨env, reply, loaded, fun same => ?_⟩
  have idle := ((neverTrained (SimEnv.shippedSane SimEnv.trained) rfl run 0 1).2.mp same).1 0
  rw [loaded] at idle
  norm_num at idle

end OmegaLb.ServedRow
