import OmegaLb.KanInference
import OmegaLb.MetricsWindows
import OmegaLb.SafetyMonitor
import OmegaLb.TokenBucketWindow

/-! The control loop of OmegaLBProxy over exact rationals, beside the requests, the checks and the
aggregation thread. A pass has no await, so that thread alone moves while it runs: what the pass reads
of the histories is any. -/
namespace OmegaLb.ControlLoop
open CbfRuntime (SafetyMonitor Call CBFProjector)
open HaRing (HAring clamp getDSet)
open KanInference (KANInference)
open MetricsWindows (MetricsStore Sample)
open OmegaProxy (TokenBucket)
open Proactive (Observed ProactiveController shedTo restoreTo Hot)
open Simplex (OnSimplex)
open StepRun (Run Does)

structure RateLimiting where
  initialRps : ℚ
  minRps : ℚ
  maxRps : ℚ

/-! ### DQNRateLimitAdjuster -/

structure Adjuster where
  step : Nat
  epsilon : ℚ

def actions : List ℚ := [9 / 10, 1, 11 / 10]

def qValues (load : ℚ) : List ℚ :=
  if load > 4 / 5 then [1, 1 / 5, 0]
  else if load > 13 / 20 then [3 / 10, 3 / 5, 1 / 10]
  else [0, 3 / 10, 7 / 10]

def argmax (q : List ℚ) : Nat := q.findIdx fun x => q.all fun y => decide (y ≤ x)

/-- np.clip -/
def clip (x low high : ℚ) : ℚ := min (max x low) high

/-- What np.random gives for one backend. -/
structure Draw where
  random : ℚ
  randint : Fin 3

def chosen (epsilon load : ℚ) (draw : Draw) : Nat :=
  if draw.random < epsilon then draw.randint else argmax (qValues load)

/-! ### The proxy -/

structure Proxy where
  metrics : MetricsStore
  ring : HAring
  kan : KANInference ℚ
  cbf : SafetyMonitor ℚ
  buckets : Nat → TokenBucket ℚ
  dqn : Adjuster

theorem startVnodes : 10 ≤ 150 ∧ 150 ≤ 300 := by decide

def Proxy.init (limits : RateLimiting) (n : Nat) (kan : KANInference ℚ) (projector : CBFProjector ℚ)
    (clock : Nat → ℚ) : Proxy where
  metrics := .init n
  ring := HaRing.start n 150 startVnodes
  kan := kan
  cbf := .init n projector 300
  buckets := fun i => ⟨limits.initialRps, limits.initialRps, clock i⟩
  dqn := ⟨0, 3 / 10⟩

def Proxy.setHealth (c : Proxy) (k : Nat) (healthy : Bool) : Proxy :=
  { c with
    ring := c.ring.putHealth k healthy
    metrics := { c.metrics with counters :=
      { c.metrics.counters with health := Function.update c.metrics.counters.health k healthy } } }

def Proxy.consume (c : Proxy) (k : Nat) (now : ℚ) : Proxy :=
  { c with buckets := Function.update c.buckets k ((c.buckets k).consume now).1 }

/-! ### One pass -/

/-- What a pass reads of the histories at its six reads, and what it draws. -/
structure Pass where
  loads : Nat → ℚ
  lats : Nat → ℚ
  errors : Nat → ℚ
  loadHist : Nat → Nat → ℚ
  perBackendLoad : Nat → ℚ
  lastLoads : Nat → ℚ
  latencyMs : ℚ
  sinT : ℚ
  cosT : ℚ
  clock : Nat → ℚ
  draws : Nat → Draw

def Pass.backends (p : Pass) (health : Nat → Bool) (n : Nat) : List (KanInference.Backend ℚ) :=
  (List.range n).map fun i => ⟨p.loads i, p.lats i, p.errors i, health i⟩

/-- The layers 3 and 2. -/
def Proxy.route (c : Proxy) (p : Pass) : Proxy × List ℚ :=
  let (weights, kan) := c.kan.infer (p.backends c.metrics.counters.health c.metrics.n) p.latencyMs p.sinT p.cosT
  let (cbf, weights, cbfActive) := c.cbf.step ⟨weights, (List.range c.metrics.n).map p.loads, none, p.clock⟩
  ({ c with
    kan := kan
    cbf := cbf
    metrics := { c.metrics with cbfActive := cbfActive, kanWeights := weights } }, weights)

/-- int() -/
def truncate (x : ℚ) : Int := x.num.tdiv x.den

def weighted (n : Nat) (w : ℚ) : Int := max 10 (truncate (w * 150 * n))

/-- `none` is an IndexError. -/
def Proxy.applyWeights (c : Proxy) (weights : List ℚ) : Option Proxy := do
  let ring ← weights.zipIdx.foldlM (fun ring (w, i) => ring.setVnodes i (weighted c.metrics.n w)) c.ring
  return { c with ring := ring, metrics := { c.metrics with vnodeCounts := ring.vnodes } }

def Pass.observed (p : Pass) (c : Proxy) : Observed :=
  ⟨MetricsWindows.historyLen, p.loadHist, p.perBackendLoad, c.metrics.counters.health⟩

def Proxy.proactive (c : Proxy) (p : Pass) : Proxy :=
  let after := (ProactiveController.mk c.ring c.metrics.proactiveActive c.metrics.vnodeCounts).step (p.observed c)
  { c with
    ring := after.ring
    metrics := { c.metrics with
      proactiveActive := after.proactiveActive
      vnodeCounts := after.vnodeCounts } }

def Proxy.limit (limits : RateLimiting) (p : Pass) (c : Proxy) (i : Nat) : Proxy :=
  if c.metrics.counters.health i then
    let action := chosen c.dqn.epsilon (p.lastLoads i) (p.draws i)
    let newRate := clip (c.metrics.rateLimits i * actions.getD action 1) limits.minRps limits.maxRps
    { c with
      metrics := c.metrics.setLimit i newRate
      buckets := Function.update c.buckets i ((c.buckets i).setRate newRate) }
  else c

def Proxy.update (limits : RateLimiting) (c : Proxy) (p : Pass) : Proxy :=
  let step := c.dqn.step + 1
  let c := { c with dqn := ⟨step, max (1 / 20) (3 / 10 - (step : ℚ) / 5000)⟩ }
  (List.range c.metrics.n).foldl (Proxy.limit limits p) c

def Proxy.pass (limits : RateLimiting) (c : Proxy) (p : Pass) : Option Proxy := do
  let (c, weights) := c.route p
  let c ← c.applyWeights weights
  return (c.proactive p).update limits p

inductive Event where
  | start (backendId : Nat)
  | finish (backendId : Nat) (sample : Sample)
  | tick (now : ℚ)
  | health (backendId : Nat) (healthy : Bool)
  | consume (backendId : Nat) (now : ℚ)
  | pass (pass : Pass)

def Proxy.exec (limits : RateLimiting) (c : Proxy) : Event → Option Proxy
  | .start i => some { c with metrics := c.metrics.recordRequestStart i }
  | .finish i sample => some { c with metrics := c.metrics.recordRequestEnd i sample }
  | .tick now => some { c with metrics := c.metrics.aggregateTick now }
  | .health i healthy => some (c.setHealth i healthy)
  | .consume i now => some (c.consume i now)
  | .pass p => c.pass limits p

/-! ### What is promised -/

/-- A pass leaves the limit of a backend alone whose flag is down. -/
def Event.adjusts (c : Proxy) (i : Nat) : Event → Prop
  | .pass _ => c.metrics.counters.health i = true
  | _ => False

/-- Some pass of the events has found the flag of the backend up. -/
def Adjusted (limits : RateLimiting) (i : Nat) : Proxy → List Event → Prop
  | _, [] => False
  | c, e :: es => e.adjusts c i ∨ ∃ d, Does (Proxy.exec limits) c e d ∧ Adjusted limits i d es

def Event.passes : Event → Nat
  | .pass _ => 1
  | _ => 0

/-- MetricsStore starts with limits of its own, which no bucket has. -/
structure Rated (limits : RateLimiting) (adjusted : Prop) (rate : ℚ) (bucket : TokenBucket ℚ) : Prop where
  unadjusted : ¬ adjusted → rate = 1000 ∧ bucket.rate = limits.initialRps
  adjusted : adjusted → min limits.minRps limits.maxRps ≤ rate ∧ rate ≤ limits.maxRps ∧ bucket.rate = max rate 10

structure Governed (limits : RateLimiting) (n : Nat) (adjusted : Nat → Prop) (passes : Nat) (c : Proxy) : Prop where
  size : c.metrics.n = n
  backends : c.ring.n = n
  health : ∀ i, i < n → c.ring.health.getD i false = c.metrics.counters.health i
  counts : c.metrics.vnodeCounts = c.ring.vnodes
  simplex : OnSimplex c.metrics.kanWeights
  aligned : c.metrics.kanWeights.length = n
  rates : ∀ i, i < n → Rated limits (adjusted i) (c.metrics.rateLimits i) (c.buckets i)
  step : c.dqn.step = passes
  epsilon : c.dqn.epsilon = max (1 / 20) (3 / 10 - (passes : ℚ) / 5000)

/-- A session answers with a weight for each backend, or raises. -/
def Fits (n : Nat) (kan : KANInference ℚ) : Prop :=
  ∀ run state out, kan.session = some run → run state = some out → out.length = n

def target (n : Nat) (rising hot : Prop) [Decidable rising] [Decidable hot] (w : ℚ) : Nat :=
  let count := clamp (max 10 ⌊w * 150 * n⌋)
  if rising then if hot then shedTo count else count
  else if count < 148 then restoreTo count else count

/-- What a pass leaves on the ring is made of its own weights, flags and histories. -/
structure Settles (n : Nat) (p : Pass) (c after : Proxy) : Prop where
  health : after.ring.health = c.ring.health
  counts : ∀ i, i < n → after.ring.vnodes.getD i 0 =
    target n ((p.observed c).slope n * 30 > 3 / 4) (Hot (p.observed c) i) (after.metrics.kanWeights.getD i 0)

/-! ### The weights -/

theorem inferSession (kan : KANInference ℚ) (backends : List (KanInference.Backend ℚ)) (latencyMs sinT cosT : ℚ) :
    (kan.infer backends latencyMs sinT cosT).2.session = kan.session := by
  unfold KANInference.infer
  split
  · rfl
  · split <;> rfl

theorem symbolicLength (kan : KANInference ℚ) (backends : List (KanInference.Backend ℚ)) :
    (kan.inferSymbolic backends).length = backends.length := by
  unfold KANInference.inferSymbolic
  dsimp only
  split
  · split <;> simp
  · simp

theorem inferLength {n : Nat} {kan : KANInference ℚ} (fits : Fits n kan) {backends : List (KanInference.Backend ℚ)}
    (length : backends.length = n) (latencyMs sinT cosT : ℚ) :
    (kan.infer backends latencyMs sinT cosT).1.length = n := by
  have symbolic := (symbolicLength kan backends).trans length
  unfold KANInference.infer
  split
  · exact symbolic
  · rename_i run session
    split
    · rename_i w answer
      simp only [KanInference.inferOnnx, bind, Option.bind_eq_some_iff] at answer
      obtain ⟨state, _, out, output, raw, product, last⟩ := answer
      have counted := fits run state out session output
      rw [KanInference.npMulAligned (by simp [counted, length])] at product
      cases product
      cases last
      split <;> simp [counted, length]
    · exact symbolic

theorem loopSimplex (p : CBFProjector ℚ) {h : List ℚ} (left iters : Nat) {w : List ℚ} (fired : List Bool)
    (nonempty : h ≠ []) (simplex : OnSimplex w) (aligned : w.length = h.length) :
    OnSimplex (p.loop h left iters w fired).weights ∧ (p.loop h left iters w fired).weights.length = h.length := by
  induction left generalizing iters w fired with
  | zero => exact ⟨simplex, aligned⟩
  | succ left ih =>
    have moved : OnSimplex (p.move h w) ∧ (p.move h w).length = h.length := by
      have pushed : (List.zipWith (fun x d => x - p.lr * d) w (p.grad h)).length = h.length := by
        simp [CBFProjector.grad, aligned]
      have some_ : List.zipWith (fun x d => x - p.lr * d) w (p.grad h) ≠ [] := fun none =>
        nonempty (List.length_eq_zero_iff.mp (pushed.symm.trans (congrArg List.length none)))
      obtain ⟨theta, one, same⟩ := CbfRuntime.projectSimplexClip some_
      rw [CBFProjector.move, same]
      exact ⟨Simplex.clipOnSimplex one, (List.length_map _).trans pushed⟩
    rw [CBFProjector.loop]
    dsimp only
    split
    · split
      · exact moved
      · exact ih _ _ moved.1 moved.2
    · exact ⟨simplex, aligned⟩

theorem projectSimplex {n : Nat} (p : CBFProjector ℚ) {weights loads : List ℚ} (some_ : 0 < n)
    (length : weights.length = n) (loaded : loads.length = n) :
    OnSimplex (p.projectFull weights loads none).weights ∧ (p.projectFull weights loads none).weights.length = n := by
  have nonempty : weights ≠ [] := List.length_pos_iff.mp (length ▸ some_)
  have barriers : (CbfRuntime.barrier (List.replicate n p.cap) loads).length = n := by
    simp [CbfRuntime.barrier, loaded]
  have projected := loopSimplex p p.maxIter.toNat 0 (List.replicate n false)
    (List.length_pos_iff.mp (by rw [barriers]; exact some_)) (CbfRuntime.startSimplex nonempty)
    (((CbfRuntime.startLength weights).trans length).trans barriers.symm)
  rw [barriers] at projected
  unfold CBFProjector.projectFull
  rw [length]
  exact projected

/-! ### The ring -/

theorem truncateFloor {x : ℚ} (nonneg : 0 ≤ x) : truncate x = ⌊x⌋ := by
  rw [truncate, Rat.floor_def', Int.tdiv_eq_ediv_of_nonneg (Rat.num_nonneg.mpr nonneg)]

theorem weightedFloor (n : Nat) {weights : List ℚ} (simplex : OnSimplex weights) (i : Nat) :
    weighted n (weights.getD i 0) = max 10 ⌊weights.getD i 0 * 150 * n⌋ := by
  have nonneg : 0 ≤ weights.getD i 0 := by
    rw [List.getD_eq_getElem?_getD]
    cases at_ : weights[i]? with
    | none => exact le_rfl
    | some x => exact simplex.nonneg x (List.mem_of_getElem? at_)
  rw [weighted, truncateFloor (by positivity)]

theorem pyIndexNat {n i : Nat} (inside : i < n) : HaRing.pyIndex n (i : Int) = some i := by
  rw [HaRing.pyIndex, if_pos (Int.natCast_nonneg i), if_pos (by exact_mod_cast inside)]
  rfl

theorem applyCounts (m : Nat) (weights : List ℚ) (k : Nat) (r : HAring) (fits : k + weights.length ≤ r.n) :
    ∃ after, (weights.zipIdx k).foldlM (fun ring (w, i) => HAring.setVnodes ring i (weighted m w)) r = some after ∧
      after.n = r.n ∧ after.health = r.health ∧ ∀ i, after.vnodes.getD i 0 =
        if k ≤ i ∧ i < k + weights.length then clamp (weighted m (weights.getD (i - k) 0)) else r.vnodes.getD i 0 := by
  induction weights generalizing k r with
  | nil => exact ⟨r, rfl, rfl, rfl, fun i => (if_neg (by simp)).symm⟩
  | cons w weights ih =>
    rw [List.length_cons] at fits
    have size : (r.putVnodes k (weighted m w)).n = r.n := by simp [HAring.n, HAring.putVnodes]
    obtain ⟨after, taken, same, health, counts⟩ := ih (k + 1) (r.putVnodes k (weighted m w)) (by omega)
    refine ⟨after, ?_, same.trans size, health, fun i => ?_⟩
    · rw [List.zipIdx_cons, List.foldlM_cons]
      dsimp only
      rw [HAring.setVnodes, pyIndexNat (by omega)]
      exact taken
    · have set_ : (r.putVnodes k (weighted m w)).vnodes.getD i 0 =
          if i = k then clamp (weighted m w) else r.vnodes.getD i 0 := getDSet _ _ _ (by rw [HAring.n] at fits; omega) _ _
      rw [counts i, set_, List.length_cons]
      rcases Nat.lt_trichotomy i k with before | rfl | past
      · rw [if_neg (by omega), if_neg (by omega), if_neg (by omega)]
      · rw [if_neg (by omega), if_pos rfl, if_pos (by omega), Nat.sub_self, List.getD_cons_zero]
      · have next : i - k = i - (k + 1) + 1 := by omega
        rw [if_neg (by omega : i ≠ k), next, List.getD_cons_succ]
        by_cases inside : i < k + (weights.length + 1)
        · rw [if_pos (by omega), if_pos (by omega)]
        · rw [if_neg (by omega), if_neg (by omega)]

theorem stepHealth (c : ProactiveController) (m : Observed) : (c.step m).ring.health = c.ring.health := by
  have sheds : ∀ (r : HAring) i, (Proactive.shed m r i).health = r.health := by
    intro r i
    unfold Proactive.shed
    split <;> rfl
  have restores : ∀ (r : HAring) i, (Proactive.restore c.ring.vnodes r i).health = r.health := by
    intro r i
    unfold Proactive.restore
    split <;> rfl
  unfold ProactiveController.step
  split
  · rfl
  · split
    · exact List.foldlRecOn (motive := fun r => r.health = c.ring.health) _ _ rfl
        fun r same i _ => (sheds r i).trans same
    · exact List.foldlRecOn (motive := fun r => r.health = c.ring.health) _ _ rfl
        fun r same i _ => (restores r i).trans same

theorem stepShown (c : ProactiveController) {m : Observed} (filled : 10 ≤ m.columns) :
    (c.step m).vnodeCounts = (c.step m).ring.vnodes := by
  unfold ProactiveController.step
  rw [if_neg (Nat.not_lt.mpr filled)]
  split <;> rfl

theorem stepCounts (c : ProactiveController) {m : Observed} (filled : 10 ≤ m.columns) :
    (c.step m).ring.n = c.ring.n ∧ ∀ i, i < c.ring.n → (c.step m).ring.vnodes.getD i 0 =
      if m.slope c.ring.n * 30 > 3 / 4 then
        if Hot m i then shedTo (c.ring.vnodes.getD i 0) else c.ring.vnodes.getD i 0
      else if c.ring.vnodes.getD i 0 < 148 then restoreTo (c.ring.vnodes.getD i 0) else c.ring.vnodes.getD i 0 := by
  by_cases rising : m.slope c.ring.n * 30 > 3 / 4
  · simp only [if_pos rising]
    exact Proactive.risingStep ⟨filled, rising⟩
  · simp only [if_neg rising]
    exact Proactive.fallingStep ⟨filled, rising⟩

/-! ### The limits -/

theorem clipRange (x low high : ℚ) : min low high ≤ clip x low high ∧ clip x low high ≤ high :=
  ⟨le_min ((min_le_left _ _).trans (le_max_right _ _)) (min_le_right _ _), min_le_right _ _⟩

theorem consumeRate (b : TokenBucket ℚ) (now : ℚ) : (b.consume now).1.rate = b.rate := by
  unfold TokenBucket.consume
  dsimp only
  split <;> split <;> rfl

/-- An update writes limits and buckets and nothing else, and the limits of the backends it visits are
adjusted. -/
structure Limited (limits : RateLimiting) (visited : Nat → Prop) (c d : Proxy) : Prop where
  same : d = { c with
    metrics := { c.metrics with rateLimits := d.metrics.rateLimits }
    buckets := d.buckets }
  rated : ∀ i adjusted, Rated limits adjusted (c.metrics.rateLimits i) (c.buckets i) →
    Rated limits (adjusted ∨ visited i) (d.metrics.rateLimits i) (d.buckets i)

theorem limitLimited (limits : RateLimiting) (p : Pass) (c : Proxy) (k : Nat) :
    Limited limits (fun i => i = k ∧ c.metrics.counters.health i = true) c (c.limit limits p k) := by
  unfold Proxy.limit
  split
  · rename_i up
    refine ⟨rfl, fun i adjusted before => ?_⟩
    dsimp only [MetricsStore.setLimit]
    by_cases own : i = k
    · subst own
      rw [Function.update_self, Function.update_self, OmegaProxy.setRateFloor]
      obtain ⟨low, high⟩ := clipRange _ limits.minRps limits.maxRps
      exact ⟨fun none => absurd (.inr ⟨rfl, up⟩) none, fun _ => ⟨low, high, rfl⟩⟩
    · rw [Function.update_of_ne own, Function.update_of_ne own]
      simpa only [own, false_and, or_false] using before
  · rename_i down
    refine ⟨rfl, fun i adjusted before => ?_⟩
    have unvisited : ¬ (i = k ∧ c.metrics.counters.health i = true) := fun here => down (here.1 ▸ here.2)
    simpa only [unvisited, or_false] using before

theorem loopLimited (limits : RateLimiting) (p : Pass) (ks : List Nat) (c : Proxy) :
    Limited limits (fun i => i ∈ ks ∧ c.metrics.counters.health i = true) c
      (ks.foldl (Proxy.limit limits p) c) := by
  induction ks generalizing c with
  | nil => exact ⟨rfl, fun i adjusted before => by
      simpa only [List.foldl_nil, List.not_mem_nil, false_and, or_false] using before⟩
  | cons k ks ih =>
    obtain ⟨same, here⟩ := limitLimited limits p c k
    obtain ⟨after, rest⟩ := ih (c.limit limits p k)
    have flags : (c.limit limits p k).metrics.counters.health = c.metrics.counters.health :=
      congrArg (fun d => d.metrics.counters.health) same
    rw [List.foldl_cons]
    refine ⟨by rw [after, same], fun i adjusted before => ?_⟩
    have both := rest i _ (here i adjusted before)
    rw [flags, or_assoc, ← or_and_right, ← List.mem_cons] at both
    exact both

theorem updateLimited (limits : RateLimiting) (c : Proxy) (p : Pass) :
    Limited limits (fun i => i < c.metrics.n ∧ c.metrics.counters.health i = true)
      { c with dqn := ⟨c.dqn.step + 1, max (1 / 20) (3 / 10 - (c.dqn.step + 1 : Nat) / 5000)⟩ } (c.update limits p) := by
  have limited := loopLimited limits p (List.range c.metrics.n)
    { c with dqn := ⟨c.dqn.step + 1, max (1 / 20) (3 / 10 - (c.dqn.step + 1 : Nat) / 5000)⟩ }
  simp only [List.mem_range] at limited
  exact limited

/-! ### One pass -/

theorem routeSimplex {n : Nat} (some_ : 0 < n) {c : Proxy} (size : c.metrics.n = n) (fits : Fits n c.kan) (p : Pass) :
    OnSimplex (c.route p).2 ∧ (c.route p).2.length = n := by
  have length : (p.backends c.metrics.counters.health c.metrics.n).length = n := by
    simp [Pass.backends, size]
  have inferred := inferLength fits length p.latencyMs p.sinT p.cosT
  exact projectSimplex c.cbf.projector some_ inferred (by simp [size])

/-- The layers above the ring, and the ring that they ask for. -/
structure Weighed (n : Nat) (p : Pass) (c d : Proxy) : Prop where
  weights : d.metrics.kanWeights = (c.route p).2
  backends : d.ring.n = c.ring.n
  flags : d.ring.health = c.ring.health
  counts : ∀ i, i < n → d.ring.vnodes.getD i 0 = clamp (weighted n (d.metrics.kanWeights.getD i 0))
  size : d.metrics.n = c.metrics.n
  health : d.metrics.counters = c.metrics.counters
  limits : d.metrics.rateLimits = c.metrics.rateLimits
  buckets : d.buckets = c.buckets
  dqn : d.dqn = c.dqn
  session : d.kan.session = c.kan.session

theorem applyWeighed {n : Nat} {p : Pass} {c : Proxy} (size : c.metrics.n = n) (backends : c.ring.n = n)
    (aligned : (c.route p).2.length = n) :
    ∃ d, (c.route p).1.applyWeights (c.route p).2 = some d ∧ Weighed n p c d := by
  obtain ⟨ring, applied, same, health, counts⟩ := applyCounts c.metrics.n (c.route p).2 0 c.ring
    (by rw [aligned, backends]; omega)
  refine ⟨{ (c.route p).1 with
    ring := ring, metrics := { (c.route p).1.metrics with vnodeCounts := ring.vnodes } }, ?_, ?_⟩
  · rw [Proxy.applyWeights]
    change (c.route p).2.zipIdx.foldlM (fun ring (w, i) => HAring.setVnodes ring i (weighted c.metrics.n w)) c.ring
      >>= _ = _
    rw [applied]
    rfl
  · refine ⟨rfl, same, health, fun i inside => ?_, rfl, rfl, rfl, rfl, rfl, inferSession _ _ _ _ _⟩
    exact (counts i).trans (by rw [if_pos (by omega), size]; rfl)

theorem passSettled {limits : RateLimiting} {n : Nat} (some_ : 0 < n) {adjusted : Nat → Prop} {passes : Nat} {c : Proxy}
    (governed : Governed limits n adjusted passes c) (fits : Fits n c.kan) (p : Pass) :
    ∃ after, c.pass limits p = some after ∧
      Governed limits n (fun i => adjusted i ∨ c.metrics.counters.health i = true) (passes + 1) after ∧
      Settles n p c after ∧ after.kan.session = c.kan.session := by
  obtain ⟨simplex, aligned⟩ := routeSimplex some_ governed.size fits p
  obtain ⟨d, applied, weighed⟩ := applyWeighed governed.size governed.backends aligned
  have observed : p.observed d = p.observed c := by rw [Pass.observed, weighed.health, Pass.observed]
  have filled : 10 ≤ (p.observed d).columns := (by decide : 10 ≤ MetricsWindows.historyLen)
  obtain ⟨backends, counts⟩ := stepCounts ⟨d.ring, d.metrics.proactiveActive, d.metrics.vnodeCounts⟩ filled
  have shown := stepShown ⟨d.ring, d.metrics.proactiveActive, d.metrics.vnodeCounts⟩ filled
  have flags := stepHealth ⟨d.ring, d.metrics.proactiveActive, d.metrics.vnodeCounts⟩ (p.observed d)
  have limited := updateLimited limits (d.proactive p) p
  have same : d.ring.n = n := weighed.backends.trans governed.backends
  have taken : c.pass limits p = some ((d.proactive p).update limits p) := by
    simp only [Proxy.pass, bind, Option.bind, applied]
    rfl
  generalize (d.proactive p).update limits p = after at limited taken
  have kept {α : Type} (read : Proxy → α) := congrArg read limited.same
  have ring : after.ring = (d.proactive p).ring := kept fun d => d.ring
  have weights : after.metrics.kanWeights = (c.route p).2 := (kept fun d => d.metrics.kanWeights).trans weighed.weights
  have counters : after.metrics.counters = c.metrics.counters := (kept fun d => d.metrics.counters).trans weighed.health
  have shownCounts : after.metrics.vnodeCounts = (d.proactive p).metrics.vnodeCounts := kept fun d => d.metrics.vnodeCounts
  have dqn : after.dqn = _ := kept fun d => d.dqn
  have steps : (d.proactive p).dqn.step = passes := (congrArg Adjuster.step weighed.dqn).trans governed.step
  refine ⟨after, taken, ⟨?_, ?_, fun i inside => ?_, ?_, ?_, ?_, fun i inside => ?_, ?_, ?_⟩,
    ⟨?_, fun i inside => ?_⟩, ?_⟩
  · exact (kept fun d => d.metrics.n).trans (weighed.size.trans governed.size)
  · rw [ring]
    exact backends.trans same
  · rw [counters, ring, ← governed.health i inside, ← weighed.flags]
    exact congrArg (fun flags => flags.getD i false) flags
  · rw [shownCounts, ring]
    exact shown
  · rw [weights]
    exact simplex
  · rw [weights]
    exact aligned
  · have before := governed.rates i inside
    rw [← weighed.limits, ← weighed.buckets] at before
    have rated := limited.rated i (adjusted i) before
    have visited : (i < (d.proactive p).metrics.n ∧ (d.proactive p).metrics.counters.health i = true) ↔
        c.metrics.counters.health i = true := by
      change (i < d.metrics.n ∧ d.metrics.counters.health i = true) ↔ _
      rw [weighed.size, weighed.health, governed.size]
      exact and_iff_right inside
    rwa [visited] at rated
  · rw [dqn]
    exact congrArg (· + 1) steps
  · rw [dqn]
    dsimp only
    rw [steps]
  · rw [ring]
    exact flags.trans weighed.flags
  · have moved := counts i (same.symm ▸ inside)
    dsimp only at moved
    rw [same, weighed.counts i inside, weighed.weights, weightedFloor n simplex] at moved
    rw [ring, weights, ← observed]
    exact moved
  · exact (kept fun d => d.kan.session).trans weighed.session

/-! ### Runs -/

theorem initGoverned (limits : RateLimiting) {n : Nat} (some_ : 0 < n) (kan : KANInference ℚ) (projector : CBFProjector ℚ)
    (clock : Nat → ℚ) : Governed limits n (fun _ => False) 0 (.init limits n kan projector clock) where
  size := rfl
  backends := List.length_replicate
  health i inside := by
    change (List.replicate n true).getD i false = true
    rw [List.getD_replicate _ inside]
  counts := rfl
  simplex := Simplex.evenOnSimplex some_
  aligned := List.length_replicate
  rates _ _ := ⟨fun _ => ⟨rfl, rfl⟩, False.elim⟩
  step := rfl
  epsilon := by norm_num [Proxy.init]

section Events

variable {limits : RateLimiting} {n passes : Nat} {adjusted : Nat → Prop} {c d : Proxy} {e : Event} {es : List Event}

theorem healthGoverned (governed : Governed limits n adjusted passes c) (k : Nat) (healthy : Bool) :
    Governed limits n adjusted passes (c.setHealth k healthy) where
  size := governed.size
  backends := governed.backends
  health i inside := by
    have before := governed.health i inside
    have ringed : c.ring.health.length = n := c.ring.backends.trans governed.backends
    unfold Proxy.setHealth HAring.putHealth
    dsimp only
    by_cases own : i = k
    · subst own
      rw [getDSet _ _ _ (ringed.symm ▸ inside), if_pos rfl, Function.update_self]
    · rw [Function.update_of_ne own, ← before]
      rw [List.getD_eq_getElem?_getD, List.getD_eq_getElem?_getD, List.getElem?_set_ne (Ne.symm own)]
  counts := governed.counts
  simplex := governed.simplex
  aligned := governed.aligned
  rates := governed.rates
  step := governed.step
  epsilon := governed.epsilon

theorem consumeGoverned (governed : Governed limits n adjusted passes c) (k : Nat) (now : ℚ) :
    Governed limits n adjusted passes (c.consume k now) :=
  { governed with
    rates := fun i inside => by
      have rate : ((c.consume k now).buckets i).rate = (c.buckets i).rate := by
        unfold Proxy.consume
        dsimp only
        by_cases own : i = k
        · subst own
          rw [Function.update_self, consumeRate]
        · rw [Function.update_of_ne own]
      obtain ⟨before, after⟩ := governed.rates i inside
      rw [← rate] at before after
      exact ⟨before, after⟩ }

theorem execGoverned (some_ : 0 < n) (governed : Governed limits n adjusted passes c) (fits : Fits n c.kan)
    (taken : Does (Proxy.exec limits) c e d) :
    Governed limits n (fun i => adjusted i ∨ e.adjusts c i) (passes + e.passes) d ∧ Fits n d.kan := by
  cases e with
  | pass p =>
    obtain ⟨after, passed, next, _, session⟩ := passSettled some_ governed fits p
    cases Option.some.inj (passed.symm.trans taken)
    exact ⟨next, fun run state out found answers => fits run state out (session ▸ found) answers⟩
  | start i =>
    cases taken
    simp only [Event.adjusts, or_false]
    exact ⟨{ governed with }, fits⟩
  | finish i sample =>
    cases taken
    simp only [Event.adjusts, or_false]
    exact ⟨{ governed with }, fits⟩
  | tick now =>
    cases taken
    simp only [Event.adjusts, or_false]
    exact ⟨{ governed with }, fits⟩
  | health i healthy =>
    cases taken
    simp only [Event.adjusts, or_false]
    exact ⟨healthGoverned governed i healthy, fits⟩
  | consume i now =>
    cases taken
    simp only [Event.adjusts, or_false]
    exact ⟨consumeGoverned governed i now, fits⟩

/-- A step adjusts what it adjusts, and what the rest of the run does is that of the state it leaves. -/
theorem adjustedCons (taken : Does (Proxy.exec limits) c e d) (i : Nat) :
    Adjusted limits i c (e :: es) ↔ e.adjusts c i ∨ Adjusted limits i d es := by
  refine or_congr_right ⟨fun later => ?_, fun later => ⟨d, taken, later⟩⟩
  obtain ⟨next, same, later⟩ := later
  cases Option.some.inj (taken.symm.trans same)
  exact later

theorem runGoverned (some_ : 0 < n) (run : Run (Does (Proxy.exec limits)) c es d)
    (governed : Governed limits n adjusted passes c) (fits : Fits n c.kan) :
    Governed limits n (fun i => adjusted i ∨ Adjusted limits i c es) (passes + (es.map Event.passes).sum) d ∧
      Fits n d.kan := by
  induction run generalizing adjusted passes with
  | nil c =>
    simp only [Adjusted, or_false, List.map_nil, List.sum_nil, Nat.add_zero]
    exact ⟨governed, fits⟩
  | cons taken _ ih =>
    obtain ⟨next, fitsNext⟩ := execGoverned some_ governed fits taken
    obtain ⟨last, fitsLast⟩ := ih next fitsNext
    simp only [adjustedCons taken, List.map_cons, List.sum_cons, ← or_assoc, ← Nat.add_assoc]
    exact ⟨last, fitsLast⟩

end Events

theorem startGoverned (limits : RateLimiting) {n : Nat} (some_ : 0 < n) {kan : KANInference ℚ} (fits : Fits n kan)
    (projector : CBFProjector ℚ) (clock : Nat → ℚ) {es : List Event} {c : Proxy}
    (run : Run (Does (Proxy.exec limits)) (.init limits n kan projector clock) es c) :
    Governed limits n (fun i => Adjusted limits i (.init limits n kan projector clock) es)
      (es.map Event.passes).sum c ∧ Fits n c.kan := by
  have reached := runGoverned some_ run (initGoverned limits some_ kan projector clock) fits
  simpa only [false_or, Nat.zero_add] using reached

/-- Requests, checks, ticks and passes in any order leave the flags together and the weights a
distribution. The limit and the bucket of a backend are what they started as until a pass has found
it healthy, and from then on one limit in the configured range. -/
theorem governedRuns (limits : RateLimiting) {n : Nat} (some_ : 0 < n) {kan : KANInference ℚ} (fits : Fits n kan)
    (projector : CBFProjector ℚ) (clock : Nat → ℚ) {es : List Event} {c : Proxy}
    (run : Run (Does (Proxy.exec limits)) (.init limits n kan projector clock) es c) :
    Governed limits n (fun i => Adjusted limits i (.init limits n kan projector clock) es)
      (es.map Event.passes).sum c :=
  (startGoverned limits some_ fits projector clock run).1

def shipped : RateLimiting := ⟨1000, 100, 5000⟩

/-- A model of two backends, which raises on any other input. -/
def modelled : KANInference ℚ := .init (some fun state => if state.length = 20 then some [3 / 4, 1 / 4] else none)

theorem modelledFits : Fits 2 modelled := by
  intro run state out session answer
  cases session
  dsimp only at answer
  split at answer
  · cases answer
    rfl
  · cases answer

def launched : Proxy := .init shipped 2 modelled .init fun _ => 0

/-- The first backend is busy, and busier at each read; the second is taken for dead. -/
def busyPass : Pass where
  loads i := if i = 0 then 7 / 10 else 1 / 10
  lats _ := 20
  errors _ := 0
  loadHist i _ := if i = 0 then 7 / 10 else 1 / 10
  perBackendLoad i := if i = 0 then 4 / 5 else 1 / 10
  lastLoads i := if i = 0 then 9 / 10 else 1 / 10
  latencyMs := 1
  sinT := 0
  cosT := 1
  clock _ := 0
  draws _ := ⟨1 / 2, Fin.last 2⟩

theorem busyRun : ∃ c,
    Run (Does (Proxy.exec shipped)) launched [.start 0, .health 1 false, .consume 0 1, .pass busyPass] c := by
  have begun := initGoverned shipped (by decide : 0 < 2) modelled .init fun _ => 0
  have started : Governed shipped 2 (fun _ => False) 0 ((launched.setHealth 1 false).consume 0 1) :=
    consumeGoverned (healthGoverned begun 1 false) 0 1
  have counted : Governed shipped 2 (fun _ => False) 0 { ((launched.setHealth 1 false).consume 0 1) with
      metrics := ((launched.setHealth 1 false).consume 0 1).metrics.recordRequestStart 0 } := { started with }
  obtain ⟨after, passed, _⟩ := passSettled (by decide) counted modelledFits busyPass
  exact ⟨after, .cons rfl (.cons rfl (.cons rfl (.cons passed (.nil after))))⟩

theorem governedRunsBusy :
    ∃ c, Run (Does (Proxy.exec shipped)) launched [.start 0, .health 1 false, .consume 0 1, .pass busyPass] c ∧
      Governed shipped 2
        (fun i => Adjusted shipped i launched [.start 0, .health 1 false, .consume 0 1, .pass busyPass]) 1 c := by
  obtain ⟨c, run⟩ := busyRun
  exact ⟨c, run, governedRuns shipped (by decide) modelledFits .init (fun _ => 0) run⟩

/-- No pass raises, and what proactive shedding takes off the ring in one pass is not there for the
next to add to: the counts are made afresh of the weights. -/
theorem passesSettle (limits : RateLimiting) {n : Nat} (some_ : 0 < n) {kan : KANInference ℚ} (fits : Fits n kan)
    (projector : CBFProjector ℚ) (clock : Nat → ℚ) {es : List Event} {c : Proxy}
    (run : Run (Does (Proxy.exec limits)) (.init limits n kan projector clock) es c) (p : Pass) :
    ∃ after, c.pass limits p = some after ∧ Settles n p c after := by
  obtain ⟨governed, fits⟩ := startGoverned limits some_ fits projector clock run
  obtain ⟨after, passed, _, settles, _⟩ := passSettled some_ governed fits p
  exact ⟨after, passed, settles⟩

theorem passesSettleBusy : ∃ c after,
    Run (Does (Proxy.exec shipped)) launched [.start 0, .health 1 false, .consume 0 1, .pass busyPass] c ∧
      c.pass shipped busyPass = some after ∧ Settles 2 busyPass c after := by
  obtain ⟨c, run⟩ := busyRun
  obtain ⟨after, passed, settles⟩ :=
    passesSettle shipped (by decide) modelledFits .init (fun _ => 0) run busyPass
  exact ⟨c, after, run, passed, settles⟩

end OmegaLb.ControlLoop
