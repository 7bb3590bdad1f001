import OmegaLb.HealthChecker
import OmegaLb.SlowStartTable

/-! The ramp of a backend after it came back up: the health checks of every endpoint, the calls
to the slow-start table and its ticks, with BeginSlowStart as the recovery callback. -/
namespace OmegaLb.SlowStartRamp
open RingManager RingInvariant SlowStartTable HealthChecker
open StepRun (Run Guarded)
open Config (RingConfig load)

variable {F : Type}

/-- How far the last DOWN-to-UP transition of a backend has come: `begun k` after its
BeginSlowStart and k ticks that advanced the restoration. -/
inductive Ramp where
  | never
  | waiting
  | begun (k : Nat)
  deriving DecidableEq, Repr

def Ramp.ticks : Ramp → Option Nat
  | .never => none
  | .waiting => some 0
  | .begun k => some k

def Ramp.begin : Ramp → Ramp
  | .waiting => .begun 0
  | ramp => ramp

def Ramp.tick (advanced : Bool) : Ramp → Ramp
  | .begun k => .begun (if advanced then k + 1 else k)
  | ramp => ramp

structure Fleet (F : Type) where
  endpoints : UInt32 → BackendEndpoint
  ring : Manager F
  ramp : UInt32 → Ramp

inductive Event (F : Type) where
  | pass (id : UInt32) (rt : Runtime)
  | fail (id : UInt32) (rt : Runtime)
  | begin (id : UInt32)
  | cancel (id : UInt32)
  | tick (rt : Runtime) (errorRate : Option (UInt32 → F))

/-- An endpoint for each id, as Register stores it. -/
def start (m : Manager F) : Fleet F where
  endpoints := fun id => { id := id }
  ring := m
  ramp := fun _ => .never

def isUp (m : Manager F) (id : UInt32) : Bool := (m.backendInfo id).any Backend.health

def Fleet.entry (s : Fleet F) (id : UInt32) : Option RestoreState := s.ring.slowStart.restoring.lookup id

/-- The ramp of a backend whose flag may have been set. -/
def Fleet.afterCheck (s : Fleet F) (id : UInt32) (ring : Manager F) : Ramp :=
  if !isUp s.ring id && isUp ring id then .waiting else s.ramp id

def Fleet.checked (s : Fleet F) (id : UInt32) (ep : BackendEndpoint) (ring : Manager F) (ramp : Ramp) : Fleet F where
  endpoints := Function.update s.endpoints id ep
  ring := ring
  ramp := Function.update s.ramp id ramp

section Step
variable [GoFloat F]

def advances (m : Manager F) (errorRate : Option (UInt32 → F)) (id : UInt32) : Bool :=
  decide (id ∈ m.slowStart.restoring) && !GoFloat.gt (errorPct errorRate id) m.slowStart.maxErrorPct

def step (cfg : HealthConfig) (s : Fleet F) : Event F → Fleet F
  | .pass id rt =>
    let (ep, ring) := markPass rt cfg (some fun id m => m.beginSlowStart id) (s.endpoints id) s.ring
    let ramp := s.afterCheck id ring
    s.checked id ep ring (if warmedUp cfg ep.consecutiveSuccesses then ramp.begin else ramp)
  | .fail id rt =>
    let (ep, ring) := markFail rt cfg (s.endpoints id) s.ring
    s.checked id ep ring (s.ramp id)
  | .begin id => { s with
      ring := s.ring.beginSlowStart id
      ramp := Function.update s.ramp id (s.ramp id).begin }
  | .cancel id => { s with ring := s.ring.cancelSlowStart id }
  | .tick rt errorRate => { s with
      ring := s.ring.slowStartTick rt errorRate
      ramp := fun id => (s.ramp id).tick (advances s.ring errorRate id) }

def Step (cfg : HealthConfig) (s : Fleet F) (e : Event F) (t : Fleet F) : Prop := step cfg s e = t

/-- This step is the first BeginSlowStart since the backend came up. -/
def Begins (cfg : HealthConfig) (s : Fleet F) (e : Event F) (id : UInt32) : Prop :=
  match e with
  | .begin k => k = id ∧ s.ramp id = .waiting
  | .pass k rt => k = id ∧
    warmedUp cfg ((s.endpoints id).consecutiveSuccesses + 1) = true ∧
    s.afterCheck id (step cfg s (.pass k rt)).ring = .waiting
  | _ => False

structure Ramps (cfg : HealthConfig) (s : Fleet F) (e : Event F) (t : Fleet F) : Prop where
  bounded : ∀ id b k, t.ring.backendInfo id = some b → b.eligible = true → (t.ramp id).ticks = some k →
    b.vnodeCount ≤ max 1 (k * t.ring.slowStart.batchSize)
  restarts : ∀ id, Begins cfg s e id → ∃ rs, t.entry id = some rs ∧ rs.currentVnodes = 0

end Step

/-- A backend that a check brings up has at most one vnode and no restoration. -/
def FromZero (cfg : HealthConfig) (s : Fleet F) : Event F → Prop
  | .pass id _ => cfg.failThreshold ≤ (s.endpoints id).failCount →
    ∀ b ∈ s.ring.backendInfo id, b.health = false →
      (b.draining = true ∨ b.vnodeCount ≤ 1) ∧ id ∉ s.ring.slowStart.restoring
  | _ => True

/-- An entry of int64 values that has come no further than `limit`. -/
structure UpTo (limit : Int) (rs : RestoreState) : Prop where
  current : -(2 ^ 63) ≤ rs.currentVnodes
  target : -(2 ^ 63) ≤ rs.targetVnodes
  within : rs.currentVnodes ≤ limit

structure Paced (s : Fleet F) : Prop where
  own : ∀ id, (s.endpoints id).id = id
  positive : 0 < s.ring.slowStart.batchSize
  count : ∀ id b k, s.ring.backendInfo id = some b → b.draining = false → (s.ramp id).ticks = some k →
    b.vnodeCount ≤ max 1 (k * s.ring.slowStart.batchSize)
  waiting : ∀ id, s.ramp id = .waiting → s.entry id = none
  progress : ∀ id rs k, s.entry id = some rs → s.ramp id = .begun k →
    UpTo (k * s.ring.slowStart.batchSize) rs

/-! ### What the checks and calls write -/

theorem beginBatch (m : Manager F) (id : UInt32) :
    (m.beginSlowStart id).slowStart.batchSize = m.slowStart.batchSize := by
  unfold Manager.beginSlowStart
  split <;> rfl

theorem beginEntry (m : Manager F) (id k : UInt32) (other : k ≠ id) :
    (m.beginSlowStart id).slowStart.restoring.lookup k = m.slowStart.restoring.lookup k := by
  unfold Manager.beginSlowStart
  split
  · rfl
  · exact AList.lookup_insert_ne other

theorem beginKnown {m : Manager F} {k : UInt32} {rs : RestoreState}
    (found : m.slowStart.restoring.lookup k = some rs) (id : UInt32) :
    (m.beginSlowStart id).slowStart.restoring.lookup k = some rs := by
  by_cases same : k = id
  · subst same
    have present : k ∈ m.slowStart.restoring := AList.lookup_isSome.mp (by simp [found])
    rw [Manager.beginSlowStart, if_pos present, found]
  · rw [beginEntry m id k same, found]

theorem beginFresh (m : Manager F) (id : UInt32) (absent : m.slowStart.restoring.lookup id = none) :
    ∃ rs, (m.beginSlowStart id).slowStart.restoring.lookup id = some rs ∧ rs.currentVnodes = 0 ∧
      1 ≤ rs.targetVnodes := by
  unfold Manager.beginSlowStart
  rw [if_neg (AList.lookup_eq_none.mp absent)]
  refine ⟨_, AList.lookup_insert _, rfl, ?_⟩
  dsimp only
  split <;> omega

/-- A check may set a flag; counts, drain flags and table stay. -/
structure Marked (m next : Manager F) : Prop where
  table : next.slowStart = m.slowStart
  info : ∀ k c, next.backendInfo k = some c → ∃ b, m.backendInfo k = some b ∧
    c.draining = b.draining ∧ c.vnodeCount = b.vnodeCount

theorem markedRefl (m : Manager F) : Marked m m :=
  ⟨rfl, fun _ c found => ⟨c, found, rfl, rfl⟩⟩

theorem setHealthMarked (rt : Runtime) (m : Manager F) (id : UInt32) (healthy : Bool) :
    Marked m (m.setHealth rt id healthy) := by
  refine ⟨setFieldSlowStart rt m id _, fun k c found => ?_⟩
  have written := (setFieldLookup rt m id k fun b => { b with health := healthy }).symm.trans found
  split at written
  · subst k
    obtain ⟨b, held, set⟩ := Option.map_eq_some_iff.mp written
    exact ⟨b, held, by rw [← set], by rw [← set]⟩
  · exact ⟨c, written, rfl, rfl⟩

/-! ### Each step keeps the pace -/

theorem checkedPaced {s : Fleet F} (paced : Paced s) {id : UInt32} {ep : BackendEndpoint} (own : ep.id = id)
    {ring : Manager F} (marked : Marked s.ring ring) {ramp : Ramp}
    (kept : ramp = s.ramp id ∨ ramp = .waiting ∧ s.entry id = none ∧
      ∀ b, s.ring.backendInfo id = some b → b.draining = false → b.vnodeCount ≤ 1) :
    Paced (s.checked id ep ring ramp) := by
  have entry : ∀ k, (s.checked id ep ring ramp).entry k = s.entry k := fun k => by
    unfold Fleet.entry Fleet.checked
    rw [marked.table]
  have batch : (s.checked id ep ring ramp).ring.slowStart.batchSize = s.ring.slowStart.batchSize :=
    congrArg SlowStartController.batchSize marked.table
  have ramps : ∀ k, (s.checked id ep ring ramp).ramp k = s.ramp k ∨
      (s.checked id ep ring ramp).ramp k = .waiting ∧ s.entry k = none ∧
        ∀ b, s.ring.backendInfo k = some b → b.draining = false → b.vnodeCount ≤ 1 := by
    intro k
    by_cases same : k = id
    · subst same
      simpa only [Fleet.checked, Function.update_self] using kept
    · exact .inl (Function.update_of_ne same _ _)
  refine ⟨fun k => ?_, ?_, fun k c n found staying ticks => ?_, fun k waiting => ?_, fun k rs n found begun => ?_⟩
  · by_cases same : k = id
    · subst same
      simp [Fleet.checked, own]
    · simp [Fleet.checked, same, paced.own k]
  · rw [batch]
    exact paced.positive
  · obtain ⟨b, before, draining, count⟩ := marked.info k c found
    rw [batch, count]
    rcases ramps k with unchanged | ⟨_, _, low⟩
    · exact paced.count k b n before (draining ▸ staying) (unchanged ▸ ticks)
    · exact le_max_of_le_left (low b before (draining ▸ staying))
  · rw [entry]
    rcases ramps k with unchanged | ⟨_, missing, _⟩
    · exact paced.waiting k (unchanged ▸ waiting)
    · exact missing
  · rw [entry] at found
    rw [batch]
    rcases ramps k with unchanged | ⟨waiting, _⟩
    · exact paced.progress k rs n found (unchanged ▸ begun)
    · rw [waiting] at begun
      contradiction

def Fleet.began (s : Fleet F) (id : UInt32) : Fleet F :=
  { s with ring := s.ring.beginSlowStart id, ramp := Function.update s.ramp id (s.ramp id).begin }

theorem tickHeld (ramp : Ramp) : ramp.tick false = ramp := by
  cases ramp <;> rfl

theorem ticksBegin (ramp : Ramp) : ramp.begin.ticks = ramp.ticks := by
  cases ramp <;> rfl

theorem beganPaced {s : Fleet F} (paced : Paced s) (id : UInt32) : Paced (s.began id) := by
  have ticks : ∀ k, ((s.began id).ramp k).ticks = (s.ramp k).ticks := by
    intro k
    by_cases same : k = id
    · subst same
      simp [Fleet.began, ticksBegin]
    · simp [Fleet.began, same]
  have batch : (s.began id).ring.slowStart.batchSize = s.ring.slowStart.batchSize := beginBatch s.ring id
  refine ⟨paced.own, ?_, fun k b n found staying begun => ?_, fun k waiting => ?_, fun k rs n found begun => ?_⟩
  · rw [batch]
    exact paced.positive
  · rw [batch]
    exact paced.count k b n ((beginSlowStartInfo s.ring id k).symm.trans found) staying ((ticks k).symm.trans begun)
  · have other : k ≠ id := by
      rintro rfl
      simp only [Fleet.began, Function.update_self] at waiting
      cases held : s.ramp k <;> simp [held, Ramp.begin] at waiting
    simp only [Fleet.began, Function.update_of_ne other] at waiting
    exact (beginEntry s.ring id k other).trans (paced.waiting k waiting)
  · rw [batch]
    have found : (s.ring.beginSlowStart id).slowStart.restoring.lookup k = some rs := found
    cases before : s.ring.slowStart.restoring.lookup k with
    | some old =>
      cases found.symm.trans (beginKnown before id)
      refine paced.progress k rs n before ?_
      -- a backend with a restoration is not waiting for one
      by_cases same : k = id
      · subst same
        simp only [Fleet.began, Function.update_self] at begun
        cases held : s.ramp k with
        | waiting => exact absurd ((paced.waiting k held).symm.trans before) (by simp)
        | never => simp [held, Ramp.begin] at begun
        | begun j => simpa [held, Ramp.begin] using begun
      · simpa only [Fleet.began, Function.update_of_ne same] using begun
    | none =>
      have room : 0 ≤ n * s.ring.slowStart.batchSize := Int.mul_nonneg (Int.natCast_nonneg n) paced.positive.le
      by_cases same : k = id
      · subst same
        obtain ⟨fresh, created, zero, aimed⟩ := beginFresh s.ring k before
        cases found.symm.trans created
        exact ⟨by omega, by omega, zero ▸ room⟩
      · rw [beginEntry s.ring id k same, before] at found
        contradiction

theorem cancelPaced {s : Fleet F} (paced : Paced s) (id : UInt32) :
    Paced { s with ring := s.ring.cancelSlowStart id } := by
  have earlier : ∀ k rs, (s.ring.cancelSlowStart id).slowStart.restoring.lookup k = some rs →
      s.entry k = some rs := by
    intro k rs found
    by_cases same : k = id
    · subst same
      rw [Manager.cancelSlowStart, AList.lookup_erase] at found
      contradiction
    · exact (AList.lookup_erase_ne same).symm.trans found
  refine ⟨paced.own, paced.positive, paced.count, fun k waiting => ?_, fun k rs n found begun => ?_⟩
  · by_contra present
    obtain ⟨rs, found⟩ := Option.ne_none_iff_exists'.mp present
    exact absurd ((paced.waiting k waiting).symm.trans (earlier k rs found)) (by simp)
  · exact paced.progress k rs n (earlier k rs found) begun

theorem beganRestarts {s : Fleet F} (paced : Paced s) {id : UInt32} (waiting : s.ramp id = .waiting) :
    ∃ rs, (s.began id).entry id = some rs ∧ rs.currentVnodes = 0 := by
  obtain ⟨rs, found, zero, _⟩ := beginFresh s.ring id (paced.waiting id waiting)
  exact ⟨rs, found, zero⟩

theorem startPaced {m : Manager F} (positive : 0 < m.slowStart.batchSize) : Paced (start m) :=
  ⟨fun _ => rfl, positive, fun _ _ _ _ _ ticks => by contradiction, fun _ waiting => by contradiction,
    fun _ _ _ _ begun => by contradiction⟩

/-! ### A check that passes -/

theorem afterBegin (s : Fleet F) (id : UInt32) (ring : Manager F) :
    s.afterCheck id (ring.beginSlowStart id) = s.afterCheck id ring := by
  unfold Fleet.afterCheck isUp
  rw [beginSlowStartInfo]

theorem afterCheckCases (s : Fleet F) (id : UInt32) (ring : Manager F) : s.afterCheck id ring = s.ramp id ∨
    s.afterCheck id ring = .waiting ∧ (!isUp s.ring id && isUp ring id) = true := by
  unfold Fleet.afterCheck
  split
  · exact .inr ⟨rfl, ‹_›⟩
  · exact .inl rfl

def Fleet.passed (s : Fleet F) (cfg : HealthConfig) (id : UInt32) (rt : Runtime) : Fleet F :=
  let ring := if (s.endpoints id).failCount ≥ cfg.failThreshold then s.ring.setHealth rt id true else s.ring
  s.checked id (markPassCounters cfg (s.endpoints id)).ep ring (s.afterCheck id ring)

theorem wentUp {cfg : HealthConfig} {s : Fleet F} {id : UInt32} {rt : Runtime}
    (zero : FromZero cfg s (.pass id rt)) {ring : Manager F}
    (marked : ring = if (s.endpoints id).failCount ≥ cfg.failThreshold then s.ring.setHealth rt id true else s.ring)
    (up : (!isUp s.ring id && isUp ring id) = true) :
    s.entry id = none ∧ ∀ b, s.ring.backendInfo id = some b → b.draining = false → b.vnodeCount ≤ 1 := by
  obtain ⟨wasDown, isNow⟩ := Bool.and_eq_true_iff.mp up
  rw [marked] at isNow
  split at isNow
  · rename_i failed
    have zero : ∀ b ∈ s.ring.backendInfo id, b.health = false →
        (b.draining = true ∨ b.vnodeCount ≤ 1) ∧ id ∉ s.ring.slowStart.restoring := zero failed
    cases found : s.ring.backendInfo id with
    | none =>
      have missing : (s.ring.setHealth rt id true).backendInfo id = none := by
        have info := setFieldLookup rt s.ring id id fun b => { b with health := true }
        rw [if_pos rfl] at info
        exact info.trans (Option.map_eq_none_iff.mpr found)
      simp [isUp, missing] at isNow
    | some b =>
      obtain ⟨low, absent⟩ := zero b found (by simpa [isUp, found] using wasDown)
      refine ⟨AList.lookup_eq_none.mpr absent, fun c same staying => ?_⟩
      cases same
      exact low.resolve_left (by simp [staying])
  · simp [isNow] at wasDown

theorem passedPaced {cfg : HealthConfig} {s : Fleet F} (paced : Paced s) {id : UInt32} {rt : Runtime}
    (zero : FromZero cfg s (.pass id rt)) : Paced (s.passed cfg id rt) := by
  have marked : Marked s.ring (if (s.endpoints id).failCount ≥ cfg.failThreshold then
      s.ring.setHealth rt id true else s.ring) := by
    split
    · exact setHealthMarked rt s.ring id true
    · exact markedRefl s.ring
  have own : (markPassCounters cfg (s.endpoints id)).ep.id = id := paced.own id
  refine checkedPaced paced own marked ?_
  rcases afterCheckCases s id (if (s.endpoints id).failCount ≥ cfg.failThreshold then
      s.ring.setHealth rt id true else s.ring) with same | ⟨waiting, up⟩
  · exact .inl same
  · exact .inr ⟨waiting, wentUp zero rfl up⟩

/-! ### One step -/

section Step
variable [GoFloat F]

theorem tickBatch (rt : Runtime) (m : Manager F) (errorRate : Option (UInt32 → F)) :
    (m.slowStartTick rt errorRate).slowStart.batchSize = m.slowStart.batchSize :=
  slowStartTickKeeps (P := fun n => n.slowStart.batchSize = m.slowStart.batchSize) rt errorRate
    (fun _ _ held => held) (fun n id count held => by rw [setVnodeCountSlowStart]; exact held) rfl

/-- A sum that wraps comes out lower, never higher. -/
theorem nextCountUpTo {batchSize limit : Int} (positive : 0 < batchSize) {rs : RestoreState}
    (upTo : UpTo limit rs) :
    -(2 ^ 63) ≤ nextCount batchSize rs ∧ nextCount batchSize rs ≤ limit + batchSize := by
  obtain ⟨current, target, within⟩ := upTo
  have low := wrapIntLow (rs.currentVnodes + batchSize)
  have below := wrapIntLe (by omega : -(2 ^ 63) ≤ rs.currentVnodes + batchSize)
  unfold nextCount
  split <;> exact ⟨by omega, by omega⟩

/-- What a tick does for one backend: nothing but a pause, or one batch. -/
theorem tickAt (rt : Runtime) (m : Manager F) (errorRate : Option (UInt32 → F)) (id : UInt32) :
    (advances m errorRate id = false ∧
      (m.slowStartTick rt errorRate).backendInfo id = m.backendInfo id ∧
      ∀ after, (m.slowStartTick rt errorRate).slowStart.restoring.lookup id = some after →
        ∃ rs, m.slowStart.restoring.lookup id = some rs ∧ after.currentVnodes = rs.currentVnodes) ∨
    (advances m errorRate id = true ∧ ∃ rs, m.slowStart.restoring.lookup id = some rs ∧
      (∀ c, (m.slowStartTick rt errorRate).backendInfo id = some c → ∃ b, m.backendInfo id = some b ∧
        c.draining = b.draining ∧ c.vnodeCount = max 1 (nextCount m.slowStart.batchSize rs)) ∧
      ∀ after, (m.slowStartTick rt errorRate).slowStart.restoring.lookup id = some after →
        after.currentVnodes = nextCount m.slowStart.batchSize rs) := by
  rw [slowStartTickEntry, slowStartTickInfo]
  have present : (id ∈ m.slowStart.restoring) = ((m.slowStart.restoring.lookup id).isSome = true) :=
    propext AList.lookup_isSome.symm
  cases found : m.slowStart.restoring.lookup id with
  | none =>
    left
    simp [advances, present, found, Seen.tick, seen]
  | some rs =>
    cases above : GoFloat.gt (errorPct errorRate id) m.slowStart.maxErrorPct with
    | true =>
      left
      simp [advances, present, found, above, Seen.tick, seen]
    | false =>
      right
      simp only [advances, present, found, above, Seen.tick, seen, Bool.false_eq_true, if_false]
      refine ⟨rfl, rs, rfl, fun c written => ?_, fun after kept => ?_⟩
      · obtain ⟨b, held, set⟩ := Option.map_eq_some_iff.mp written
        refine ⟨b, held, by rw [← set], ?_⟩
        rw [← set]
        dsimp only
        split <;> omega
      · split at kept
        · contradiction
        · cases kept
          rfl

omit [GoFloat F] in
/-- The count of a batch is within what its ticks allow. -/
theorem batchPaced {s : Fleet F} (paced : Paced s) {id : UInt32} {rs : RestoreState} (entry : s.entry id = some rs)
    {k : Nat} (ticks : ((s.ramp id).tick true).ticks = some k) :
    -(2 ^ 63) ≤ nextCount s.ring.slowStart.batchSize rs ∧ -(2 ^ 63) ≤ rs.targetVnodes ∧
      nextCount s.ring.slowStart.batchSize rs ≤ k * s.ring.slowStart.batchSize := by
  cases ramp : s.ramp id with
  | never =>
    rw [ramp] at ticks
    contradiction
  | waiting => exact absurd ((paced.waiting id ramp).symm.trans entry) (by simp)
  | begun j =>
    obtain rfl : j + 1 = k := by simpa [ramp, Ramp.tick, Ramp.ticks] using ticks
    have progress := paced.progress id rs j entry ramp
    have step := nextCountUpTo paced.positive progress
    have more : ((j + 1 : Nat) : Int) * s.ring.slowStart.batchSize =
        j * s.ring.slowStart.batchSize + s.ring.slowStart.batchSize := by
      push_cast
      ring
    exact ⟨step.1, progress.target, by omega⟩

theorem tickPaced {s : Fleet F} (paced : Paced s) (rt : Runtime) (errorRate : Option (UInt32 → F)) :
    Paced { s with
      ring := s.ring.slowStartTick rt errorRate
      ramp := fun id => (s.ramp id).tick (advances s.ring errorRate id) } := by
  have batch := tickBatch rt s.ring errorRate
  refine ⟨paced.own, ?_, fun id c k found staying ticks => ?_, fun id waiting => ?_, fun id after k found begun => ?_⟩
  · rw [batch]
    exact paced.positive
  · rw [batch]
    rcases tickAt rt s.ring errorRate id with ⟨held, info, _⟩ | ⟨moved, rs, entry, info, _⟩
    · refine paced.count id c k (info.symm.trans found) staying ?_
      dsimp only at ticks
      rwa [held, tickHeld] at ticks
    · obtain ⟨b, before, draining, count⟩ := info c found
      dsimp only at ticks
      rw [moved] at ticks
      have allowed := (batchPaced paced entry ticks).2.2
      omega
  · have ramp : s.ramp id = .waiting := by
      cases ramp : s.ramp id <;> simp [ramp, Ramp.tick] at waiting ⊢
    by_contra present
    obtain ⟨after, found⟩ := Option.ne_none_iff_exists'.mp present
    rcases tickAt rt s.ring errorRate id with ⟨_, _, kept⟩ | ⟨_, rs, entry, _⟩
    · obtain ⟨rs, entry, _⟩ := kept after found
      exact absurd ((paced.waiting id ramp).symm.trans entry) (by simp)
    · exact absurd ((paced.waiting id ramp).symm.trans entry) (by simp)
  · rw [batch]
    dsimp only at begun
    obtain ⟨before, was, aim⟩ := slowStartTickTarget rt found
    rcases tickAt rt s.ring errorRate id with ⟨held, _, kept⟩ | ⟨moved, rs, entry, _, kept⟩
    · obtain ⟨rs, entry, current⟩ := kept after found
      rw [held, tickHeld] at begun
      obtain ⟨low, target, within⟩ := paced.progress id rs k entry begun
      cases was.symm.trans entry
      exact ⟨by omega, by omega, by omega⟩
    · cases was.symm.trans entry
      have current := kept after found
      rw [moved] at begun
      obtain ⟨low, target, within⟩ := batchPaced paced entry (by rw [begun]; rfl)
      exact ⟨by omega, by omega, by omega⟩

theorem failStep (cfg : HealthConfig) (s : Fleet F) (id : UInt32) (rt : Runtime) :
    ∃ ring, Marked s.ring ring ∧
      step cfg s (.fail id rt) = s.checked id (markFailCounters cfg (s.endpoints id)).1 ring (s.ramp id) := by
  refine ⟨(markFail rt cfg (s.endpoints id) s.ring).2, ?_, rfl⟩
  unfold markFail
  dsimp only
  split
  · exact setHealthMarked rt s.ring _ false
  · exact markedRefl s.ring

theorem passStep (cfg : HealthConfig) {s : Fleet F} (id : UInt32) (rt : Runtime) (own : (s.endpoints id).id = id) :
    step cfg s (.pass id rt) =
      if warmedUp cfg ((s.endpoints id).consecutiveSuccesses + 1) then (s.passed cfg id rt).began id
      else s.passed cfg id rt := by
  cases warm : warmedUp cfg ((s.endpoints id).consecutiveSuccesses + 1) with
  | true =>
    simp [step, markPass, markPassCounters, warm, own, Fleet.passed, Fleet.checked, Fleet.began, afterBegin]
  | false => simp [step, markPass, markPassCounters, warm, own, Fleet.passed]

theorem stepPaced {cfg : HealthConfig} {s t : Fleet F} {e : Event F} (paced : Paced s) (zero : FromZero cfg s e)
    (taken : Step cfg s e t) : Paced t := by
  subst taken
  cases e with
  | pass id rt =>
    have passed := passedPaced paced zero
    rw [passStep cfg id rt (paced.own id)]
    split
    · exact beganPaced passed id
    · exact passed
  | fail id rt =>
    obtain ⟨ring, marked, result⟩ := failStep cfg s id rt
    have own : (markFailCounters cfg (s.endpoints id)).1.id = id := paced.own id
    rw [result]
    exact checkedPaced paced own marked (.inl rfl)
  | begin id => exact beganPaced paced id
  | cancel id => exact cancelPaced paced id
  | tick rt errorRate => exact tickPaced paced rt errorRate

theorem stepRamps {cfg : HealthConfig} {s t : Fleet F} {e : Event F} (paced : Paced s) (zero : FromZero cfg s e)
    (taken : Step cfg s e t) : Ramps cfg s e t := by
  refine ⟨fun id b k found eligible ticks => ?_, fun id begins => ?_⟩
  · have staying : b.draining = false := by
      simp only [Backend.eligible, Bool.and_eq_true, Bool.not_eq_true'] at eligible
      exact eligible.2
    exact (stepPaced paced zero taken).count id b k found staying ticks
  · subst taken
    cases e with
    | pass k rt =>
      obtain ⟨rfl, warm, waiting⟩ := begins
      have result := passStep cfg k rt (paced.own k)
      rw [if_pos warm] at result
      rw [result] at waiting ⊢
      refine beganRestarts (passedPaced paced zero) ?_
      have waiting : s.afterCheck k ((s.passed cfg k rt).ring.beginSlowStart k) = .waiting := waiting
      rw [afterBegin] at waiting
      simpa [Fleet.passed, Fleet.checked] using waiting
    | begin k =>
      obtain ⟨rfl, waiting⟩ := begins
      exact beganRestarts paced waiting
    | fail k rt => exact begins.elim
    | cancel k => exact begins.elim
    | tick rt errorRate => exact begins.elim

theorem rampedRuns {cfg : HealthConfig} {m : Manager F} (positive : 0 < m.slowStart.batchSize)
    {es : List (Event F)} {t : Fleet F} (run : Run (Guarded (FromZero cfg) (Step cfg)) (start m) es t) :
    Run (fun s e t => Step cfg s e t ∧ Ramps cfg s e t) (start m) es t := by
  have kept : ∀ (s : Fleet F) e t, Paced s → FromZero cfg s e → Step cfg s e t → Paced t :=
    fun _ _ _ paced zero taken => stepPaced paced zero taken
  have ramps : ∀ (s : Fleet F) e t, Paced s → FromZero cfg s e → Step cfg s e t → Ramps cfg s e t :=
    fun _ _ _ paced zero taken => stepRamps paced zero taken
  exact StepRun.guardedAlso kept ramps run (startPaced positive)

end Step

/-! ### One backend -/

def oneServer (vnodes : Int) : Manager ℚ :=
  ((newManager (load {})).addBackend .plain { id := 1, health := true }).setVnodeCount .plain 1 vnodes

def quick : HealthConfig where
  failThreshold := 1
  minSuccessesBeforeRestore := 1

def recovery : List (Event ℚ) := [.fail 1 .plain, .pass 1 .plain, .tick .plain none, .tick .plain none]

theorem zeroedServerRamps : ∃ t : Fleet ℚ,
    Run (fun s e t => Step quick s e t ∧ Ramps quick s e t) (start (oneServer 0)) recovery t := by
  have zero : ∀ b ∈ (step quick (start (oneServer 0)) (.fail 1 .plain)).ring.backendInfo 1,
      b.vnodeCount ≤ 1 := by decide +kernel
  have absent : 1 ∉ (step quick (start (oneServer 0)) (.fail 1 .plain)).ring.slowStart.restoring := by
    decide +kernel
  have run : Run (Guarded (FromZero quick) (Step quick)) (start (oneServer 0)) recovery _ :=
    .cons ⟨trivial, rfl⟩ (.cons ⟨fun _ b found _ => ⟨.inr (zero b found), absent⟩, rfl⟩
      (.cons ⟨trivial, rfl⟩ (.cons ⟨trivial, rfl⟩ (.nil _))))
  exact ⟨_, rampedRuns (by decide +kernel) run⟩

/-- A recovered backend has the count it went down with, and one that went down in the middle
of a ramp goes on with it. -/
theorem recoveryKeepsWeight :
    (∃ s t : Fleet ℚ, Run (Step quick) (start (oneServer 100)) [.fail 1 .plain] s ∧
      Step quick s (.pass 1 .plain) t ∧ (t.ring.backendInfo 1).map Backend.vnodeCount = some 100 ∧
      ¬ Ramps quick s (.pass 1 .plain) t) ∧
    ∃ s t : Fleet ℚ, Run (Step quick) (start (oneServer 100))
        [.fail 1 .plain, .pass 1 .plain, .tick .plain none, .fail 1 .plain] s ∧
      Step quick s (.pass 1 .plain) t ∧ (t.entry 1).map RestoreState.currentVnodes = some 15 ∧
      ¬ Ramps quick s (.pass 1 .plain) t := by
  refine ⟨⟨_, _, .cons rfl (.nil _), rfl, by decide +kernel, fun ramps => ?_⟩,
    _, _, .cons rfl (.cons rfl (.cons rfl (.cons rfl (.nil _)))), rfl, by decide +kernel, fun ramps => ?_⟩
  · have heavy := ramps.bounded 1 { id := 1, vnodeCount := 100, health := true } 0 (by decide +kernel)
      (by decide +kernel) (by decide +kernel)
    exact absurd heavy (by decide +kernel)
  · obtain ⟨rs, held, zero⟩ := ramps.restarts 1 ⟨rfl, by decide +kernel, by decide +kernel⟩
    have going : (Fleet.entry _ 1).map RestoreState.currentVnodes = some 0 :=
      (congrArg (Option.map RestoreState.currentVnodes) held).trans (congrArg some zero)
    exact absurd going (by decide +kernel)

end OmegaLb.SlowStartRamp
