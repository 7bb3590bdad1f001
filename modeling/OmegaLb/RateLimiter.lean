import OmegaLb.GoMath
import OmegaLb.RingManager
import OmegaLb.StepRun

/-! The rate limiter of dqn_a3c.go: a limiter for each service, the Q-network that chooses among its
three actions, and the step that goes through all of them. What is only logged is left out. -/
namespace OmegaLb.RateLimit
open RingManager (Runtime)
open StepRun (Run)

/-- `min` is math.Min, `toInt` the conversion int(x). -/
class GoConvert (F : Type) where
  min : F → F → F
  toInt : F → Int

instance : GoConvert ℚ where
  min := fun a b => if a ≤ b then a else b
  toInt := fun a => if 0 ≤ a then ⌊a⌋ else ⌈a⌉

structure ServiceState (F : Type) where
  currentRPS : F
  backendCPUPct : F
  queueDepth : F
  errorRate5m : F
  p99LatencyMs : F
  currentLimit : F

structure Transition (F : Type) where
  state : ServiceState F
  action : Int
  reward : F
  next : ServiceState F

structure DqnNetwork (F : Type) where
  stateDim : Nat
  actionDim : Nat
  w : List (List F)
  b : List F

structure ServiceLimiter (F : Type) where
  serviceID : UInt32
  currentLimit : F
  minRPS : F
  maxRPS : F
  replayBuffer : List (Transition F)
  qNetwork : DqnNetwork F

structure RouterWeightBus (F : Type) where
  weights : List F
  capacities : List F
  aggregateCap : F

structure A3cContrib (F : Type) where
  serviceID : UInt32
  state : ServiceState F
  action : Int
  reward : F

structure DQNAgent (F : Type) where
  services : GoMap UInt32 (ServiceLimiter F)
  contribs : List (A3cContrib F)
  routerBus : RouterWeightBus F
  rngSeed : UInt64

structure ServiceRateLimit (F : Type) where
  serviceID : UInt32
  initialRPS : F
  minRPS : F
  maxRPS : F

def actionDecrease : Int := 0
def actionHold : Int := 1
def actionIncrease : Int := 2

section Model
variable {F : Type} [GoMath F]

/-! ### Random numbers and the network -/

def mathRandFloat (seed : UInt64) : F × UInt64 :=
  let seed := seed ^^^ (seed <<< 13)
  let seed := seed ^^^ (seed >>> 7)
  let seed := seed ^^^ (seed <<< 17)
  (GoFloat.ofInt (seed &&& 0x7FFFFFFFFFFFFFFF).toNat / GoFloat.ofInt 0x7FFFFFFFFFFFFFFF, seed)

def mathRandIntn [GoConvert F] (n : Int) (seed : UInt64) : Int × UInt64 :=
  let (x, seed) : F × UInt64 := mathRandFloat seed
  (GoConvert.toInt (x * GoFloat.ofInt n), seed)

def initRow (scale : F) : Nat → UInt64 → List F × UInt64
  | 0, seed => ([], seed)
  | j + 1, seed =>
    let (x, seed) := mathRandFloat seed
    let (row, seed) := initRow scale j seed
    ((x * GoFloat.lit 2 - GoFloat.lit 1) * scale :: row, seed)

def initRows (scale : F) (stateDim : Nat) : Nat → UInt64 → List (List F) × UInt64
  | 0, seed => ([], seed)
  | i + 1, seed =>
    let (row, seed) := initRow scale stateDim seed
    let (rows, seed) := initRows scale stateDim i seed
    (row :: rows, seed)

def newDQNNetwork [GoRoots F] (stateDim actionDim : Nat) (seed : UInt64) : DqnNetwork F × UInt64 :=
  let scale : F := GoRoots.sqrt (GoFloat.lit 2.0 / GoFloat.ofInt stateDim)
  let (w, seed) := initRows scale stateDim actionDim seed
  (⟨stateDim, actionDim, w, List.replicate actionDim (GoFloat.lit 0)⟩, seed)

/-- Every row of `w` has stateDim entries. -/
def DqnNetwork.forward (n : DqnNetwork F) (state : List F) : List F :=
  List.zipWith (fun row b => sumFrom (GoFloat.lit 0) (List.zipWith (· * ·) row state) + b) n.w n.b

def argmaxFrom (best : Nat) (value : F) (i : Nat) : List F → Nat
  | [] => best
  | x :: rest => if GoFloat.gt x value then argmaxFrom i x (i + 1) rest else argmaxFrom best value (i + 1) rest

def argmax : List F → Nat
  | [] => 0
  | x :: rest => argmaxFrom 0 x 1 rest

def stateToVec (s : ServiceState F) : List F :=
  [s.currentRPS / GoFloat.lit 10000, s.backendCPUPct, s.queueDepth / GoFloat.lit 1000, s.errorRate5m,
    s.p99LatencyMs / GoFloat.lit 1000, s.currentLimit / GoFloat.lit 10000]

/-! ### One limiter -/

abbrev Select (F : Type) := ServiceLimiter F → ServiceState F → UInt64 → Int × UInt64

def ServiceLimiter.selectAction [GoConvert F] : Select F := fun s st seed =>
  let (x, seed) : F × UInt64 := mathRandFloat seed
  if GoFloat.gt (GoFloat.lit 0.1) x then @mathRandIntn F _ _ 3 seed
  else (argmax (s.qNetwork.forward (stateToVec st)), seed)

def ServiceLimiter.applyAction [GoConvert F] (s : ServiceLimiter F) (action : Int) : ServiceLimiter F :=
  if action = actionDecrease then
    { s with currentLimit := GoMath.max s.minRPS (s.currentLimit * GoFloat.lit 0.90) }
  else if action = actionIncrease then
    { s with currentLimit := GoConvert.min s.maxRPS (s.currentLimit * GoFloat.lit 1.10) }
  else s

def observeState (s : ServiceLimiter F) : ServiceState F :=
  ⟨GoFloat.lit 100, GoFloat.lit 0.5, GoFloat.lit 0, GoFloat.lit 0, GoFloat.lit 0, s.currentLimit⟩

def computeReward (s : ServiceState F) (_action : Int) (aggregateCap : F) : F :=
  let reward := s.currentRPS - s.errorRate5m * GoFloat.lit 100 -
    GoMath.max (GoFloat.lit 0) (s.p99LatencyMs - GoFloat.lit 200)
  if GoFloat.gt s.backendCPUPct (GoFloat.lit 0.90) then GoFloat.lit (-1e9)
  else if GoFloat.gt aggregateCap (GoFloat.lit 0) ∧ GoFloat.gt s.currentRPS aggregateCap then
    reward - (s.currentRPS - aggregateCap) * GoFloat.lit 2.0
  else reward

def replayCapacity : Nat := 50000

def ServiceLimiter.remember (s : ServiceLimiter F) (t : Transition F) : ServiceLimiter F :=
  if s.replayBuffer.length < replayCapacity then { s with replayBuffer := s.replayBuffer ++ [t] } else s

/-! ### The agent -/

def RouterWeightBus.setRouterState (weights capacities : List F) (totalRPSBudget : F) : RouterWeightBus F :=
  ⟨weights, capacities, sumFrom (GoFloat.lit 0) (List.zipWith (· * ·) weights capacities) * totalRPSBudget⟩

def newServiceLimiter (svc : ServiceRateLimit F) (net : DqnNetwork F) : ServiceLimiter F :=
  ⟨svc.serviceID, svc.initialRPS, svc.minRPS, svc.maxRPS, [], net⟩

def addService [GoRoots F] (built : GoMap UInt32 (ServiceLimiter F) × UInt64) (svc : ServiceRateLimit F) :
    GoMap UInt32 (ServiceLimiter F) × UInt64 :=
  let (net, seed) := newDQNNetwork 6 3 built.2
  (built.1.insert svc.serviceID (newServiceLimiter svc net), seed)

/-- `ranged` is cfg.Services in the order in which the loop meets them. -/
def newDQNAgent [GoRoots F] (ranged : List (ServiceRateLimit F)) (rngSeed : UInt64) : DQNAgent F :=
  let (services, seed) := ranged.foldl addService (∅, rngSeed)
  ⟨services, [], ⟨[], [], GoFloat.lit 0⟩, seed⟩

variable [GoConvert F]

/-- The body of the loop of step; a service that is ranged over is in the map. -/
def DQNAgent.visit (select : Select F) (aggCap : F) (d : DQNAgent F) (id : UInt32) : DQNAgent F :=
  match d.services.lookup id with
  | none => d
  | some svc =>
    let st := observeState svc
    let (action, seed) := select svc st d.rngSeed
    let reward := computeReward st action aggCap
    let svc := svc.applyAction action
    let svc := svc.remember ⟨st, action, reward, observeState svc⟩
    { d with
      services := GoMap.modify d.services id fun _ => svc
      contribs := d.contribs ++ [⟨id, st, action, reward⟩]
      rngSeed := seed }

def DQNAgent.visits (select : Select F) (d : DQNAgent F) (ids : List UInt32) : DQNAgent F :=
  ids.foldl (DQNAgent.visit select d.routerBus.aggregateCap) d

def DQNAgent.globalUpdate (d : DQNAgent F) : DQNAgent F := { d with contribs := [] }

def DQNAgent.stepWith (select : Select F) (rt : Runtime) (d : DQNAgent F) : DQNAgent F :=
  (d.visits select (rt.keyOrder d.services.keys)).globalUpdate

def DQNAgent.step (rt : Runtime) (d : DQNAgent F) : DQNAgent F := d.stepWith ServiceLimiter.selectAction rt

def DQNAgent.currentLimit (d : DQNAgent F) (serviceID : UInt32) : F :=
  match d.services.lookup serviceID with
  | some svc => svc.currentLimit
  | none => GoFloat.lit (-1)

end Model

/-! ### Construction -/

/-- `svc` is the last of its id, so its limiter is the one that stays. -/
def Configured {F : Type} (ranged : List (ServiceRateLimit F)) (svc : ServiceRateLimit F) : Prop :=
  ∃ before after, ranged = before ++ svc :: after ∧ ∀ other ∈ after, other.serviceID ≠ svc.serviceID

section Construction
variable {F : Type} [GoMath F] [GoRoots F]

theorem addedElsewhere {after : List (ServiceRateLimit F)} {id : UInt32}
    (other : ∀ svc ∈ after, svc.serviceID ≠ id) (built : GoMap UInt32 (ServiceLimiter F) × UInt64) :
    (after.foldl addService built).1.lookup id = built.1.lookup id := by
  induction after generalizing built with
  | nil => rfl
  | cons svc rest ih =>
    obtain ⟨first, later⟩ := List.forall_mem_cons.mp other
    rw [List.foldl_cons, ih later]
    exact AList.lookup_insert_ne (Ne.symm first)

theorem configuredLimiter {ranged : List (ServiceRateLimit F)} {svc : ServiceRateLimit F}
    (configured : Configured ranged svc) (seed : UInt64) :
    ∃ net, (newDQNAgent ranged seed).services.lookup svc.serviceID = some (newServiceLimiter svc net) := by
  obtain ⟨before, after, rfl, last⟩ := configured
  simp only [newDQNAgent, List.foldl_append, List.foldl_cons]
  rw [addedElsewhere last]
  exact ⟨_, AList.lookup_insert _⟩

theorem limiterConfigured {ranged : List (ServiceRateLimit F)} {seed : UInt64} {id : UInt32}
    {limiter : ServiceLimiter F} (found : (newDQNAgent ranged seed).services.lookup id = some limiter) :
    ∃ svc net, Configured ranged svc ∧ svc.serviceID = id ∧ limiter = newServiceLimiter svc net := by
  simp only [newDQNAgent] at found
  induction ranged using List.reverseRecOn with
  | nil => simp at found
  | append_singleton ranged svc ih =>
    rw [List.foldl_append] at found
    by_cases same : id = svc.serviceID
    · subst same
      have here := (AList.lookup_insert _).symm.trans found
      exact ⟨svc, _, ⟨ranged, [], rfl, by simp⟩, rfl, (Option.some.inj here).symm⟩
    · obtain ⟨old, net, ⟨before, after, shape, last⟩, owns, limits⟩ :=
        ih ((AList.lookup_insert_ne same).symm.trans found)
      refine ⟨old, net, ⟨before, after ++ [svc], by simp [shape], fun other member => ?_⟩, owns, limits⟩
      rcases List.mem_append.mp member with earlier | new
      · exact last other earlier
      · rw [List.mem_singleton.mp new, owns]
        exact Ne.symm same

end Construction

/-! ### Limits -/

def Within (d : DQNAgent ℚ) : Prop :=
  ∀ id svc, d.services.lookup id = some svc → svc.minRPS ≤ svc.currentLimit ∧ svc.currentLimit ≤ svc.maxRPS

structure Fenced (s : ServiceLimiter ℚ) : Prop where
  positive : 0 < s.minRPS
  low : s.minRPS ≤ s.currentLimit
  high : s.currentLimit ≤ s.maxRPS

/-- Each action watches one bound; the limit moves away from the other. -/
theorem applyFenced {s : ServiceLimiter ℚ} (fenced : Fenced s) (action : Int) : Fenced (s.applyAction action) := by
  obtain ⟨positive, low, high⟩ := fenced
  unfold ServiceLimiter.applyAction
  split
  · refine ⟨positive, ?_, ?_⟩
    · simp only [ratMax]
      exact le_max_left _ _
    · simp only [ratMax, ratLit]
      exact max_le (low.trans high) (by linarith)
  · split
    · have least : GoConvert.min s.maxRPS (s.currentLimit * GoFloat.lit 1.10) =
          min s.maxRPS (s.currentLimit * 1.10) := (min_def _ _).symm
      rw [least]
      exact ⟨positive, le_min (low.trans high) (by linarith), min_le_left _ _⟩
    · exact ⟨positive, low, high⟩

theorem rememberFenced {s : ServiceLimiter ℚ} (fenced : Fenced s) (t : Transition ℚ) : Fenced (s.remember t) := by
  unfold ServiceLimiter.remember
  split
  · exact ⟨fenced.positive, fenced.low, fenced.high⟩
  · exact fenced

def AllFenced (d : DQNAgent ℚ) : Prop := ∀ id svc, d.services.lookup id = some svc → Fenced svc

theorem fencedWithin {d : DQNAgent ℚ} (fenced : AllFenced d) : Within d :=
  fun id svc found => ⟨(fenced id svc found).low, (fenced id svc found).high⟩

theorem visitFenced {d : DQNAgent ℚ} (fenced : AllFenced d) (select : Select ℚ) (aggCap : ℚ) (id : UInt32) :
    AllFenced (d.visit select aggCap id) := by
  unfold DQNAgent.visit
  cases held : d.services.lookup id with
  | none => exact fenced
  | some old =>
    intro j svc found
    simp only [GoMap.lookupModify] at found
    split at found
    · rw [held] at found
      cases found
      exact rememberFenced (applyFenced (fenced id old held) _) _
    · exact fenced j svc found

theorem visitsFenced {d : DQNAgent ℚ} (fenced : AllFenced d) (select : Select ℚ) (ids : List UInt32) :
    AllFenced (d.visits select ids) := by
  unfold DQNAgent.visits
  generalize d.routerBus.aggregateCap = aggCap
  induction ids generalizing d with
  | nil => exact fenced
  | cons id rest ih => exact ih (visitFenced fenced select aggCap id)

/-! ### Runs -/

inductive DQNEvent where
  | step (select : Select ℚ) (rt : Runtime)
  | route (weights capacities : List ℚ) (totalRPSBudget : ℚ)

def Advances (d : DQNAgent ℚ) (e : DQNEvent) (d' : DQNAgent ℚ) : Prop :=
  match e with
  | .step select rt => d' = d.stepWith select rt
  | .route weights capacities budget =>
    d' = { d with routerBus := RouterWeightBus.setRouterState weights capacities budget }

/-- After any run, and wherever the step that follows has got to. -/
def AlwaysWithin (d : DQNAgent ℚ) : Prop :=
  ∀ es d', Run Advances d es d' → Within d' ∧ ∀ select ids, Within (d'.visits select ids)

theorem stepAdvances (rt : Runtime) (d : DQNAgent ℚ) : Advances d (.step ServiceLimiter.selectAction rt) (d.step rt) :=
  rfl

theorem advancesFenced {d d' : DQNAgent ℚ} {e : DQNEvent} (fenced : AllFenced d) (advances : Advances d e d') :
    AllFenced d' := by
  cases e with
  | step select rt =>
    cases advances
    exact visitsFenced fenced select _
  | route weights capacities budget =>
    cases advances
    exact fenced

theorem limitsExact [GoRoots ℚ] {ranged : List (ServiceRateLimit ℚ)}
    (bounds : ∀ svc ∈ ranged, 0 < svc.minRPS ∧ svc.minRPS ≤ svc.maxRPS) (seed : UInt64) :
    AlwaysWithin (newDQNAgent ranged seed) ↔
      ∀ svc, Configured ranged svc → svc.minRPS ≤ svc.initialRPS ∧ svc.initialRPS ≤ svc.maxRPS := by
  constructor
  · intro always svc configured
    obtain ⟨net, found⟩ := configuredLimiter configured seed
    exact (always [] _ (.nil _)).1 _ _ found
  · intro initial es d run
    have built : AllFenced (newDQNAgent ranged seed) := by
      intro id limiter found
      obtain ⟨svc, net, configured, _, rfl⟩ := limiterConfigured found
      have listed : svc ∈ ranged := by
        obtain ⟨before, after, rfl, _⟩ := configured
        simp
      have limits := initial svc configured
      exact ⟨(bounds svc listed).1, limits.1, limits.2⟩
    have fenced := StepRun.runInvariant (fun _ _ _ held taken => advancesFenced held taken) run built
    exact ⟨fencedWithin fenced, fun select ids => fencedWithin (visitsFenced fenced select ids)⟩

def shipped : ServiceRateLimit ℚ := ⟨1, 1000, 100, 5000⟩

theorem limitsExactShipped : ∃ (_ : GoRoots ℚ), AlwaysWithin (newDQNAgent [shipped] 0xdeadbeef) := by
  let roots : GoRoots ℚ := ⟨id, id⟩
  have alone : ∀ svc, svc ∈ [shipped] → svc = shipped := fun svc member => List.mem_singleton.mp member
  refine ⟨roots, (limitsExact (fun svc member => ?_) _).mpr fun svc configured => ?_⟩
  · rw [alone svc member]
    decide +kernel
  · obtain ⟨before, after, shape, _⟩ := configured
    have listed : svc ∈ [shipped] := shape ▸ List.mem_append_right before List.mem_cons_self
    rw [alone svc listed]
    decide +kernel

def generous : ServiceRateLimit ℚ := ⟨1, 10000, 100, 5000⟩

/-- A service configured at 10000 with a maximum of 5000 starts at 10000. -/
theorem initialAbove : ∃ (_ : GoRoots ℚ), ¬ ∀ (ranged : List (ServiceRateLimit ℚ)) (seed : UInt64),
    (∀ svc ∈ ranged, 0 < svc.minRPS ∧ svc.minRPS ≤ svc.maxRPS) → AlwaysWithin (newDQNAgent ranged seed) := by
  let roots : GoRoots ℚ := ⟨id, id⟩
  refine ⟨roots, fun always => ?_⟩
  have bounds : ∀ svc ∈ [generous], 0 < svc.minRPS ∧ svc.minRPS ≤ svc.maxRPS := fun svc member => by
    rw [List.mem_singleton.mp member]
    decide +kernel
  have first := (always [generous] 0xdeadbeef bounds [] _ (.nil _)).1
  obtain ⟨net, found⟩ := configuredLimiter (⟨[], [], rfl, by simp⟩ : Configured [generous] generous) 0xdeadbeef
  have most : generous.initialRPS ≤ generous.maxRPS := (first _ _ found).2
  exact absurd most (by decide +kernel)

end OmegaLb.RateLimit
