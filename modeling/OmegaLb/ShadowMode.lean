import OmegaLb.RingInvariant
import OmegaLb.RlAgent

/-! The agent of stage 4, which only ever steps in ModeAssisted, beside the other users of the
ring. Uniform weights come out of the projection, the smoothing and the gate as they went in,
and they are written: every backend of the snapshot is given 150 vnodes. -/
namespace OmegaLb.Rl
open CbfProjector
open Metrics (Collector)
open RingManager (Manager Runtime Backend Op Vnode newManager)
open RingInvariant (Sound)
open Config (RingConfig)
open StepRun (Run Does)

/-! ### Uniform weights through the projection -/

theorem uniformRat (n : Nat) : (uniformWeights n : List ℚ) = List.replicate n (1 / (n : ℚ)) := by
  norm_num [uniformWeights]

theorem uniformLength (n : Nat) : (uniformWeights n : List ℚ).length = n := by
  rw [uniformRat, List.length_replicate]

theorem projectReplicate {n : Nat} (some_ : n ≠ 0) (x : ℚ) :
    projectOntoSimplex (List.replicate n x) = uniformWeights n := by
  have nonempty : List.replicate n x ≠ [] := by simp [some_]
  have total := (projectOnSimplex nonempty).total
  rw [projectClip, Simplex.clip, List.map_replicate] at total ⊢
  rw [List.sum_replicate, nsmul_eq_mul] at total
  rw [uniformRat, eq_one_div_of_mul_eq_one_right total]

theorem gradientStepReplicate (c : CBFProjector ℚ) {n : Nat} {backends : List (CBFBackendState ℚ)}
    (counted : backends.length = n) (idle : ∀ b ∈ backends, b.currentLoad = 0) (r x : ℚ) :
    ∃ y, c.gradientStep (List.replicate n r) backends (List.replicate n x) = List.replicate n y := by
  refine ⟨x - GoFloat.lit 0.05 * c.gradient ⟨0, 0⟩ x r, List.eq_replicate_iff.mpr ⟨?_, ?_⟩⟩
  · simp [CBFProjector.gradientStep, counted]
  · intro y member
    obtain ⟨⟨⟨id, load⟩, wi, rawi⟩, inside, same⟩ := List.mem_map.mp member
    obtain ⟨known, pair⟩ := List.of_mem_zip inside
    obtain ⟨left, right⟩ := List.of_mem_zip pair
    have unloaded : load = 0 := idle _ known
    rw [← same, unloaded, List.eq_of_mem_replicate left, List.eq_of_mem_replicate right]
    rfl

theorem descendUniform (c : CBFProjector ℚ) {n : Nat} (some_ : n ≠ 0)
    {backends : List (CBFBackendState ℚ)} (counted : backends.length = n)
    (idle : ∀ b ∈ backends, b.currentLoad = 0) (fuel : Nat) :
    c.descend (uniformWeights n) backends fuel (uniformWeights n) = uniformWeights n := by
  induction fuel with
  | zero => rfl
  | succ fuel ih =>
    obtain ⟨y, level⟩ := gradientStepReplicate c counted idle (1 / (n : ℚ)) (1 / (n : ℚ))
    rw [← uniformRat] at level
    rw [CBFProjector.descend]
    split
    · rw [level, projectReplicate some_, ih]
    · rfl

theorem projectUniform (c : CBFProjector ℚ) {n : Nat} (some_ : n ≠ 0) (state : List ℚ)
    {backends : List (CBFBackendState ℚ)} (counted : backends.length = n)
    (idle : ∀ b ∈ backends, b.currentLoad = 0) :
    ∃ next : CBFProjector ℚ, next.frozenMode = false ∧
      c.project (uniformWeights n) state backends = (next, uniformWeights n, none) := by
  have nonempty : (uniformWeights n : List ℚ) ≠ [] := by simp [uniformRat, some_]
  have done := projectDescends c state (counted.trans (uniformLength n).symm) nonempty
  have first : projectOntoSimplex (uniformWeights n : List ℚ) = uniformWeights n := by
    rw [uniformRat, projectReplicate some_, uniformRat]
  rw [first, descendUniform c some_ counted idle] at done
  exact ⟨_, rfl, done⟩

/-! ### Uniform weights through the smoothing and the gate -/

structure Settled (a : Agent ℚ) : Prop where
  mode : a.mode = .assisted
  smoothed : ∀ w, a.prevW = some w → w = uniformWeights w.length
  applied : ∀ w, a.prevAppliedW = some w → w = uniformWeights w.length

theorem smoothUniform {a : Agent ℚ} (settled : Settled a) (modelWeight : ℚ) (n : Nat) :
    a.smooth modelWeight (uniformWeights n) = uniformWeights n := by
  unfold Agent.smooth
  split
  · rfl
  · rename_i prev before
    split
    · rfl
    · rename_i same
      rw [settled.smoothed prev before, not_not.mp same, uniformLength, uniformRat,
        List.zipWith_replicate', ratLit]
      ring_nf

theorem vnodeCountUniform {n : Nat} (some_ : n ≠ 0) : vnodeCount (1 / (n : ℚ)) vnodeBase n = 150 := by
  have whole : 1 / (n : ℚ) * 150 * n = (150 : Int) := by
    field_simp
    norm_num
  simp only [vnodeCount, vnodeBase, ratOfInt, ratRound, Int.cast_natCast]
  rw [Int.cast_ofNat, whole, roundInt]
  norm_num

theorem totalUniform {n : Nat} (some_ : n ≠ 0) :
    totalCount (uniformWeights n : List ℚ) n = 150 * n := by
  rw [totalCount, uniformRat, List.map_replicate, vnodeCountUniform some_, List.sum_replicate]
  simp [mul_comm]

theorem gateUniform [GoRoots ℚ] {a : Agent ℚ} (settled : Settled a) {n : Nat} (some_ : n ≠ 0) :
    ∃ next, a.shouldApplyWeights (uniformWeights n) n = .ok (next, true) ∧ next.mode = a.mode ∧
      next.prevW = a.prevW := by
  unfold Agent.shouldApplyWeights
  split
  · exact ⟨a, rfl, rfl, rfl⟩
  · rename_i prev before
    split
    · exact ⟨a, rfl, rfl, rfl⟩
    · rename_i same
      have old : prev = uniformWeights n := by
        rw [settled.applied prev before, not_not.mp same, uniformLength]
      refine ⟨a.clearPending, ?_, rfl, rfl⟩
      simp [old, totalUniform some_, some_]
      norm_num

/-! ### The write -/

def writeCounts (rt : Nat → Runtime) : Manager ℚ → Nat → List UInt32 → Manager ℚ
  | m, _, [] => m
  | m, i, id :: rest => writeCounts rt (m.setVnodeCount (rt i) id 150) (i + 1) rest

theorem applyUniform (rt : Nat → Runtime) {n : Nat} (m : Manager ℚ) (i : Nat) (ids : List UInt32)
    (fits : i + ids.length ≤ n) :
    applyFrom rt (uniformWeights n) n m i ids = .ok (writeCounts rt m i ids) := by
  induction ids generalizing m i with
  | nil => rfl
  | cons id rest ih =>
    rw [List.length_cons] at fits
    have weight : goIndex (uniformWeights n : List ℚ) i = .ok (1 / (n : ℚ)) := by
      rw [uniformRat]
      exact goIndexFound (List.getElem?_replicate_of_lt (by omega))
    simp only [applyFrom, weight, bind, Except.bind, vnodeCountUniform (show n ≠ 0 by omega)]
    exact ih _ _ (by omega)

theorem writeCountsSound (rt : Nat → Runtime) {m : Manager ℚ} (sound : Sound m) (i : Nat)
    (ids : List UInt32) : Sound (writeCounts rt m i ids) := by
  induction ids generalizing m i with
  | nil => exact sound
  | cons id rest ih => exact ih (RingInvariant.setVnodeCountSound _ sound id 150) _

def full (b : Backend) : Backend := { b with vnodeCount := 150 }

theorem setFullLookup (rt : Runtime) (m : Manager ℚ) (id k : UInt32) :
    (m.setVnodeCount rt id 150).backends.lookup k =
      if k = id then (m.backends.lookup id).map full else m.backends.lookup k :=
  RingInvariant.setFieldLookup rt m id k _

theorem writeCountsLookup (rt : Nat → Runtime) (m : Manager ℚ) (i : Nat) (ids : List UInt32)
    (k : UInt32) : (writeCounts rt m i ids).backends.lookup k =
      if k ∈ ids then (m.backends.lookup k).map full else m.backends.lookup k := by
  induction ids generalizing m i with
  | nil => simp [writeCounts]
  | cons id rest ih =>
    rw [writeCounts, ih, setFullLookup]
    by_cases same : k = id
    · subst same
      cases m.backends.lookup k <;> simp [full]
    · simp [same]

structure Untouched (m next : Manager ℚ) : Prop where
  counts : ∀ id, (next.backends.lookup id).map Backend.vnodeCount =
    (m.backends.lookup id).map Backend.vnodeCount
  positions : next.ring.map Vnode.pos = m.ring.map Vnode.pos

theorem writeCountsUntouched (rt : Nat → Runtime) {m : Manager ℚ} (sound : Sound m) (i : Nat)
    (ids : List UInt32) : Untouched m (writeCounts rt m i ids) ↔
      ∀ id ∈ ids, ∀ b, m.backends.lookup id = some b → b.vnodeCount = 150 := by
  constructor
  · intro untouched id listed b found
    have count := untouched.counts id
    rw [writeCountsLookup, if_pos listed, found] at count
    exact (Option.some.inj count).symm
  · intro even
    have same : ∀ k, (writeCounts rt m i ids).backends.lookup k = m.backends.lookup k := by
      intro k
      rw [writeCountsLookup]
      split
      · rename_i listed
        cases found : m.backends.lookup k with
        | none => rfl
        | some b =>
          have count := even k listed b found
          rw [Option.map_some, full, ← count]
      · rfl
    exact ⟨fun id => by rw [same], RingInvariant.samePositions sound (writeCountsSound rt sound i ids) same⟩

/-! ### One step -/

section Roots
variable [GoRoots ℚ]

theorem actUniform {a : Agent ℚ} (settled : Settled a) (rt : Nat → Runtime) (m : Manager ℚ)
    {ids : List UInt32} (some_ : ids.length ≠ 0) :
    ∃ next, Settled next ∧ a.act rt m ids (uniformWeights ids.length) =
      .ok (next, writeCounts rt m 0 ids, none) := by
  obtain ⟨held, gate, mode, prevW⟩ := gateUniform settled some_
  have written := applyUniform (n := ids.length) rt m 0 ids (by omega)
  refine ⟨{ held with prevAppliedW := some (uniformWeights ids.length) }, ?_, ?_⟩
  · refine ⟨mode.trans settled.mode, fun w before => settled.smoothed w (prevW ▸ before), ?_⟩
    intro w before
    rw [← Option.some.inj before, uniformLength]
  · simp only [Agent.act, gate, bind, Except.bind, applyWeightsToRing, written]
    rfl

theorem stepWrites {a : Agent ℚ} (settled : Settled a) (rt : Nat → Runtime) (m : Manager ℚ)
    (collector : Option (Collector ℚ)) (wait : Wait) :
    ∃ next, Settled next ∧ a.step rt m collector wait =
      .ok (next, writeCounts (fun k => rt (k + 2)) m 0 (collectState rt collector).2, none) := by
  unfold Agent.step
  obtain ⟨state, ids⟩ := collectState rt collector
  dsimp only
  by_cases empty : ids.length = 0
  · rw [if_pos empty, List.length_eq_zero_iff.mp empty]
    exact ⟨a, settled, rfl⟩
  · have idle : ∀ b ∈ ids.map fun id => CBFBackendState.mk id (GoFloat.lit 0 : ℚ),
        b.currentLoad = 0 := by simp
    obtain ⟨cbf, thawed, projected⟩ := projectUniform a.cbf empty state (by simp) idle
    have raw : { a with ood := a.ood.observe state }.rawWeights wait state ids.length =
        .ok (uniformWeights ids.length) := by
      simp only [Agent.rawWeights, settled.mode]
    have smoothed := smoothUniform (a := { a with ood := a.ood.observe state, cbf := cbf })
      ⟨settled.mode, settled.smoothed, settled.applied⟩
      (a.ood.actionWeight (a.ood.score state) (GoFloat.lit 1.0 - a.actionSmoothing)) ids.length
    rw [if_neg empty, raw]
    simp only [bind, Except.bind, projected, CBFProjector.isFrozen, thawed, smoothed,
      Bool.false_eq_true, if_false]
    refine actUniform ?_ _ m empty
    refine ⟨settled.mode, fun w before => ?_, settled.applied⟩
    rw [← Option.some.inj before, uniformLength]

/-! ### Every run -/

structure Daemon where
  agent : Agent ℚ
  ring : Manager ℚ

inductive Event where
  | ring (rt : Runtime) (op : Op ℚ)
  | step (rt : Nat → Runtime) (collector : Option (Collector ℚ)) (wait : Wait)
  | reload (kan : KANActor ℚ)

/-- daemon.New at stage 4. -/
def shadowDaemon (actionSmoothing : ℚ) (kan : Option (KANActor ℚ)) (cbf : CBFProjector ℚ)
    (cfg : RingConfig ℚ) : Daemon :=
  ⟨(newAgent actionSmoothing kan cbf).setMode .assisted [], newManager cfg⟩

def exec (s : Daemon) : Event → Option Daemon
  | .ring rt op => (s.ring.apply rt op).toOption.map fun m => { s with ring := m }
  | .step rt collector wait =>
    (s.agent.step rt s.ring collector wait).toOption.map fun (a, m, _) => ⟨a, m⟩
  | .reload kan => some { s with agent := s.agent.hotReload kan }

structure Shadowed (s : Daemon) : Prop where
  sound : Sound s.ring
  settled : Settled s.agent

omit [GoRoots ℚ] in
theorem shadowStart (actionSmoothing : ℚ) (kan : Option (KANActor ℚ)) (cbf : CBFProjector ℚ)
    (cfg : RingConfig ℚ) : Shadowed (shadowDaemon actionSmoothing kan cbf cfg) where
  sound := RingInvariant.newManagerSound cfg
  settled := ⟨rfl, fun _ none_ => by contradiction, fun _ none_ => by contradiction⟩

theorem execShadowed {s t : Daemon} {e : Event} (shadowed : Shadowed s) (taken : exec s e = some t) :
    Shadowed t := by
  cases e with
  | ring rt op =>
    simp only [exec, Option.map_eq_some_iff] at taken
    obtain ⟨m, applied, rfl⟩ := taken
    exact ⟨RingInvariant.applySound rt shadowed.sound (goReturned applied), shadowed.settled⟩
  | step rt collector wait =>
    obtain ⟨next, settled, stepped⟩ := stepWrites shadowed.settled rt s.ring collector wait
    simp only [exec, stepped] at taken
    cases taken
    exact ⟨writeCountsSound _ shadowed.sound _ _, settled⟩
  | reload kan =>
    cases taken
    exact ⟨shadowed.sound, shadowed.settled.mode, shadowed.settled.smoothed,
      shadowed.settled.applied⟩

theorem runShadowed {actionSmoothing : ℚ} {kan : Option (KANActor ℚ)} {cbf : CBFProjector ℚ}
    {cfg : RingConfig ℚ} {events : List Event} {s : Daemon}
    (run : Run (Does exec) (shadowDaemon actionSmoothing kan cbf cfg) events s) : Shadowed s := by
  have preserved : ∀ (u : Daemon) e v, Shadowed u → Does exec u e v → Shadowed v :=
    fun _ _ _ shadowed taken => execShadowed shadowed taken
  exact StepRun.runInvariant preserved run (shadowStart actionSmoothing kan cbf cfg)

/-- In every run of the shadow mode, a step leaves the ring as it is exactly when each backend
of the snapshot that is registered has 150 vnodes already. -/
theorem shadowStepExact {actionSmoothing : ℚ} {kan : Option (KANActor ℚ)} {cbf : CBFProjector ℚ}
    {cfg : RingConfig ℚ} {events : List Event} {s : Daemon}
    (run : Run (Does exec) (shadowDaemon actionSmoothing kan cbf cfg) events s)
    (rt : Nat → Runtime) (collector : Option (Collector ℚ)) (wait : Wait) :
    ∃ next m, s.agent.step rt s.ring collector wait = .ok (next, m, none) ∧
      (Untouched s.ring m ↔ ∀ snap, collector = some snap → ∀ id ∈ snap, ∀ b,
        s.ring.backends.lookup id = some b → b.vnodeCount = 150) := by
  have shadowed := runShadowed run
  obtain ⟨next, _, stepped⟩ := stepWrites shadowed.settled rt s.ring collector wait
  refine ⟨next, _, stepped, (writeCountsUntouched _ shadowed.sound _ _).trans ?_⟩
  cases collector with
  | none => simp [collectState]
  | some snap =>
    have listed : ∀ id, id ∈ (collectState rt (some snap)).2 ↔ id ∈ snap := fun id =>
      (collectIdsPerm rt snap).mem_iff.trans AList.mem_keys.symm
    simp only [listed, Option.some.injEq, forall_eq']

end Roots

def seen : Collector ℚ := AList.insert 1 ⟨20, 0, 1, [20]⟩ ∅

def afterOps (ops : List (Op ℚ)) : List Event := ops.map (.ring .plain)

def registered : Manager ℚ := (newManager (Config.load {})).addBackend .plain { id := 1, health := true }

theorem registeredUntouched : (registered.backends.lookup 1).map Backend.vnodeCount = some 150 ∧
    ∀ _ : GoRoots ℚ, ∃ next m, ((newAgent 0 none (newCBFProjector 0 0)).setMode .assisted []).step
      (fun _ => .plain) registered (some seen) .answered = .ok (next, m, none) ∧
      Untouched registered m := by
  refine ⟨by decide +kernel, fun _ => ?_⟩
  have run : Run (Does exec) (shadowDaemon 0 none (newCBFProjector 0 0) (Config.load {}))
      (afterOps [.addBackend { id := 1, health := true }]) ⟨_, registered⟩ := .cons rfl (.nil _)
  obtain ⟨next, m, stepped, exact_⟩ := shadowStepExact run (fun _ => .plain) (some seen) .answered
  refine ⟨next, m, stepped, exact_.mpr ?_⟩
  rintro snap same id listed b found
  cases same
  have known : id = 1 := List.mem_singleton.mp listed
  subst known
  have count : (registered.backends.lookup 1).map Backend.vnodeCount = some 150 := by decide +kernel
  rw [found] at count
  exact Option.some.inj count

def ShadowInert [GoRoots ℚ] : Prop :=
  ∀ actionSmoothing kan cbf cfg events s,
    Run (Does exec) (shadowDaemon actionSmoothing kan cbf cfg) events s →
    ∀ rt collector wait next m err, s.agent.step rt s.ring collector wait = .ok (next, m, err) →
      Untouched s.ring m

def restoring : Manager ℚ := (registered.beginSlowStart 1).slowStartTick .plain none

/-- A backend in slow start has 15 of its 150 vnodes, and one step in shadow mode gives it all
of them. -/
theorem slowStartOverruled : ¬ ∃ _ : GoRoots ℚ, ShadowInert := by
  rintro ⟨_, inert⟩
  have run : Run (Does exec) (shadowDaemon 0 none (newCBFProjector 0 0) (Config.load {}))
      (afterOps [.addBackend { id := 1, health := true }, .beginSlowStart 1, .slowStartTick none])
      ⟨_, restoring⟩ := .cons rfl (.cons rfl (.cons rfl (.nil _)))
  have shadowed := runShadowed run
  obtain ⟨next, _, stepped⟩ := stepWrites shadowed.settled (fun _ => .plain) restoring (some seen)
    .answered
  have untouched := inert _ _ _ _ _ _ run _ _ _ _ _ _ stepped
  have even := (writeCountsUntouched _ shadowed.sound _ _).mp untouched 1
    ((collectIdsPerm _ seen).mem_iff.mpr (by decide +kernel))
  have slow : (restoring.backends.lookup 1).map Backend.vnodeCount = some 15 := by decide +kernel
  obtain ⟨b, found, count⟩ := Option.map_eq_some_iff.mp slow
  have full := even b found
  omega

end OmegaLb.Rl
