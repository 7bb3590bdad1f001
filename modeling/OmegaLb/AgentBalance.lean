import OmegaLb.AgentSteps
import OmegaLb.CbfRecovery
import OmegaLb.CbfSafety
import OmegaLb.RingInvariant
import OmegaLb.ShadowMode

/-! What every run of the agent keeps over the rationals. The projected, the smoothed and the
applied weights are points of the simplex, and the vnodes they are rounded to add up to 150 for
each backend, give or take the rounding. -/
namespace OmegaLb.Rl
open CbfProjector
open RingManager (Manager Runtime Backend)
open Simplex (OnSimplex)
open StepRun (Run Guarded Does)

structure Point (n : Nat) (w : List ℚ) : Prop where
  length : w.length = n
  simplex : OnSimplex w

/-! ### Rounded counts -/

theorem vnodeCountRat (x : ℚ) (n : Nat) :
    vnodeCount x vnodeBase n = max (roundHalfAway (x * 150 * n)) 1 := by
  simp only [vnodeCount, vnodeBase, ratOfInt, ratRound, Int.cast_natCast, Int.cast_ofNat]
  split <;> omega

theorem countBounds {x : ℚ} (nonneg : 0 ≤ x) (n : Nat) :
    x * 150 * n - 1 / 2 ≤ vnodeCount x vnodeBase n ∧ (vnodeCount x vnodeBase n : ℚ) ≤ x * 150 * n + 1 := by
  have near := roundNear (x * 150 * n)
  have scaled : 0 ≤ x * 150 * n := by positivity
  rw [vnodeCountRat, Int.cast_max, Int.cast_one]
  constructor
  · exact near.1.trans (le_max_left _ _)
  · exact max_le (by linarith) (by linarith)

theorem totalBounds {w : List ℚ} (nonneg : ∀ x ∈ w, 0 ≤ x) (n : Nat) :
    w.sum * 150 * n - w.length / 2 ≤ totalCount w n ∧
      (totalCount w n : ℚ) ≤ w.sum * 150 * n + w.length := by
  induction w with
  | nil => simp [totalCount]
  | cons x w ih =>
    obtain ⟨first, rest⟩ := List.forall_mem_cons.mp nonneg
    have head := countBounds first n
    have tail := ih rest
    have split : totalCount (x :: w) n = vnodeCount x vnodeBase n + totalCount w n := rfl
    rw [split, List.sum_cons, List.length_cons]
    push_cast
    constructor <;> linarith

theorem pointTotal {n : Nat} {w : List ℚ} (point : Point n w) :
    150 * n - n / 2 ≤ (totalCount w n : ℚ) ∧ (totalCount w n : ℚ) ≤ 150 * n + n := by
  have bounds := totalBounds point.simplex.nonneg n
  rw [point.simplex.total, point.length, one_mul] at bounds
  exact bounds

/-! ### The write -/

def vnodesOf (m : Manager ℚ) (id : UInt32) : Option Int := (m.backends.lookup id).map Backend.vnodeCount

theorem setVnodesOf (rt : Runtime) (m : Manager ℚ) (id k : UInt32) (x : ℚ) (n : Nat) :
    vnodesOf (m.setVnodeCount rt id (vnodeCount x vnodeBase n)) k =
      if k = id then (vnodesOf m id).map fun _ => vnodeCount x vnodeBase n else vnodesOf m k := by
  have least : ¬ vnodeCount x vnodeBase n < 1 := by
    rw [vnodeCountRat]
    omega
  unfold vnodesOf Manager.setVnodeCount
  rw [RingInvariant.setFieldLookup]
  by_cases same : k = id
  · rw [if_pos same, if_pos same, Option.map_map, Option.map_map]
    exact congrArg (Option.map · _) (funext fun _ => if_neg least)
  · rw [if_neg same, if_neg same]

theorem applyElsewhere (rt : Nat → Runtime) {w : List ℚ} {n : Nat} {m next : Manager ℚ} {i : Nat}
    {ids : List UInt32} (written : applyFrom rt w n m i ids = .ok next) {k : UInt32}
    (other : k ∉ ids) : vnodesOf next k = vnodesOf m k := by
  induction ids generalizing m i with
  | nil =>
    cases written
    rfl
  | cons id rest ih =>
    obtain ⟨apart, other⟩ := not_or.mp (List.mem_cons.not.mp other)
    rw [applyFrom] at written
    cases weight : goIndex w i with
    | error p =>
      rw [weight] at written
      contradiction
    | ok x =>
      rw [weight] at written
      rw [ih written other, setVnodesOf, if_neg apart]

theorem applyWritten (rt : Nat → Runtime) {w : List ℚ} {n : Nat} {m next : Manager ℚ} {i : Nat}
    {ids : List UInt32} (distinct : ids.Nodup) (written : applyFrom rt w n m i ids = .ok next)
    {j : Nat} {id : UInt32} {x : ℚ} (atId : ids[j]? = some id) (atX : w[i + j]? = some x) :
    vnodesOf next id = (vnodesOf m id).map fun _ => vnodeCount x vnodeBase n := by
  induction ids generalizing m i j with
  | nil => contradiction
  | cons first rest ih =>
    obtain ⟨fresh, distinct⟩ := List.nodup_cons.mp distinct
    rw [applyFrom] at written
    cases weight : goIndex w i with
    | error p =>
      rw [weight] at written
      contradiction
    | ok y =>
      rw [weight] at written
      cases j with
      | zero =>
        cases atId
        have same : y = x := by
          rw [Nat.add_zero] at atX
          rw [goIndexFound atX] at weight
          exact (Except.ok.inj weight).symm
        rw [applyElsewhere rt written fresh, setVnodesOf, if_pos rfl, same]
      | succ j =>
        have apart : id ≠ first := fun same => fresh (same ▸ List.mem_of_getElem? atId)
        rw [ih distinct written atId (by rwa [Nat.add_right_comm, Nat.add_assoc]), setVnodesOf,
          if_neg apart]

/-! ### The model's weight and the smoothing -/

theorem actionWeightUnit {o : OODDetector ℚ} (limit : 0 < o.threshold) (score : ℚ) {nominal : ℚ}
    (low : 0 ≤ nominal) (high : nominal ≤ 1) :
    0 ≤ o.actionWeight score nominal ∧ o.actionWeight score nominal ≤ 1 := by
  unfold OODDetector.actionWeight
  simp only [ratLe, ratLit, decide_eq_true_eq]
  split
  · exact ⟨low, high⟩
  · rename_i above
    split
    · norm_num
    · rename_i below
      have early : 0 ≤ (score - o.threshold) / o.threshold := by
        apply div_nonneg _ limit.le
        linarith
      have late : (score - o.threshold) / o.threshold ≤ 1 := by
        rw [div_le_one limit]
        linarith
      constructor
      · exact mul_nonneg low (by linarith)
      · exact mul_le_one₀ high (by linarith) (by linarith)

theorem smoothPoint {a : Agent ℚ} {n : Nat} {modelWeight : ℚ} (low : 0 ≤ modelWeight)
    (high : modelWeight ≤ 1) (before : ∀ w, a.prevW = some w → Point n w) {safeW : List ℚ}
    (point : Point n safeW) : Point n (a.smooth modelWeight safeW) := by
  unfold Agent.smooth
  split
  · exact point
  · rename_i prevW held
    have prev := before prevW held
    split
    · exact point
    · rw [ratLit]
      refine ⟨by simp [point.length, prev.length], ?_⟩
      exact Simplex.mixOnSimplex low high (point.length.trans prev.length.symm) point.simplex prev.simplex

/-! ### The projection -/

theorem uniformPoint {n : Nat} (some_ : n ≠ 0) : Point n (uniformWeights n) where
  length := uniformLength n
  simplex := by
    rw [uniformRat]
    constructor
    · intro x member
      rw [List.eq_of_mem_replicate member]
      positivity
    · rw [List.sum_replicate, nsmul_eq_mul]
      field_simp

theorem projectionIterate [GoRoots ℚ] (a : Agent ℚ) {ids : List UInt32} (some_ : ids.length ≠ 0)
    (state : List ℚ) {rawW : List ℚ} (counted : rawW.length = ids.length) :
    Iterate rawW (a.projection state ids rawW none).2.1 ∧
      (a.projection state ids rawW none).1.lastSafeW = (a.projection state ids rawW none).2.1 := by
  have nonempty : rawW ≠ [] := fun empty => some_ (by rw [← counted, empty, List.length_nil])
  have paired : (ids.map fun id => CBFBackendState.mk id (GoFloat.lit 0 : ℚ)).length =
      rawW.length := by rw [List.length_map, counted]
  have iterate := descendIterate a.cbf paired nonempty maxIter (startIterate nonempty)
  simp only [Agent.projection, projectDescends a.cbf state paired nonempty]
  exact ⟨iterate, trivial⟩

theorem projectionPoint [GoRoots ℚ] {a : Agent ℚ} {ids : List UInt32} (some_ : ids.length ≠ 0)
    (safe : a.cbf.lastSafeW.length = ids.length → OnSimplex a.cbf.lastSafeW) (state : List ℚ)
    {rawW : List ℚ} (counted : rawW.length = ids.length) (failure : Option (CBFError ℚ)) :
    ((a.projection state ids rawW failure).1.lastSafeW.length = ids.length →
      OnSimplex (a.projection state ids rawW failure).1.lastSafeW) ∧
    Point ids.length (a.projection state ids rawW failure).2.1 := by
  cases failure with
  | some cause =>
    simp only [Agent.projection, failSafeSpec, counted]
    refine ⟨safe, ?_⟩
    split
    · rename_i same
      exact ⟨same, safe same⟩
    · exact uniformPoint some_
  | none =>
    obtain ⟨iterate, kept⟩ := projectionIterate a some_ state counted
    exact ⟨fun _ => kept ▸ iterate.simplex, iterate.aligned.trans counted, iterate.simplex⟩

/-! ### The invariant -/

/-- What SetVnodeCount is given for a weight of x. -/
def allotted (n : Nat) (x : ℚ) : Int := max (roundHalfAway (x * 150 * n)) 1

def Written (ids : List UInt32) (w : List ℚ) (m : Manager ℚ) : Prop :=
  ∀ (i : Nat) id x, ids[i]? = some id → w[i]? = some x → vnodesOf m id = some (allotted ids.length x)

structure Balanced (ids : List UInt32) (s : Loop) : Prop where
  smoothing : 0 ≤ s.agent.actionSmoothing ∧ s.agent.actionSmoothing ≤ 1
  limit : 0 < s.agent.ood.threshold
  registered : ∀ id ∈ ids, vnodesOf s.ring id ≠ none
  safe : s.agent.cbf.lastSafeW.length = ids.length → OnSimplex s.agent.cbf.lastSafeW
  projected : ∀ w, s.projected = some w → Point ids.length w
  smoothed : ∀ w, s.agent.prevW = some w → Point ids.length w
  applied : ∀ w, s.agent.prevAppliedW = some w → Point ids.length w ∧ Written ids w s.ring

theorem observeThreshold [GoRoots ℚ] (o : OODDetector ℚ) (state : List ℚ) :
    (o.observe state).threshold = o.threshold := by
  unfold OODDetector.observe OODDetector.update
  split
  · rfl
  · split <;> rfl

theorem writtenApplied (rt : Nat → Runtime) {ids : List UInt32} (distinct : ids.Nodup) {w : List ℚ}
    {m next : Manager ℚ} (registered : ∀ id ∈ ids, vnodesOf m id ≠ none)
    (written : applyWeightsToRing rt m ids w = .ok next) : Written ids w next := by
  intro i id x atId atX
  have known := registered id (List.mem_of_getElem? atId)
  have after := applyWritten rt distinct written atId (by rwa [Nat.zero_add])
  obtain ⟨count, before⟩ := Option.ne_none_iff_exists'.mp known
  rw [after, before, Option.map_some, vnodeCountRat, allotted]

theorem registeredApplied (rt : Nat → Runtime) {ids : List UInt32} {w : List ℚ} {n : Nat}
    {m next : Manager ℚ} {i : Nat} (written : applyFrom rt w n m i ids = .ok next) (k : UInt32)
    (known : vnodesOf m k ≠ none) : vnodesOf next k ≠ none := by
  induction ids generalizing m i with
  | nil =>
    cases written
    exact known
  | cons id rest ih =>
    rw [applyFrom] at written
    cases weight : goIndex w i with
    | error p =>
      rw [weight] at written
      contradiction
    | ok x =>
      rw [weight] at written
      refine ih written ?_
      rw [setVnodesOf]
      split
      · rename_i same
        rw [same] at known
        simpa using known
      · exact known

section Roots
variable [GoRoots ℚ]

/-! ### The gate never holds a point of the simplex -/

omit [GoRoots ℚ] in
theorem totalsClose {n : Nat} (some_ : n ≠ 0) {prev w : List ℚ} (before : Point n prev)
    (after : Point n w) : 0 < totalCount prev n ∧
      |((totalCount w n - totalCount prev n : Int) : ℚ)| / totalCount prev n ≤ 1 / 10 := by
  have old := pointTotal before
  have new := pointTotal after
  have one : (1 : ℚ) ≤ n := by exact_mod_cast Nat.one_le_iff_ne_zero.mpr some_
  have positive : (0 : ℚ) < totalCount prev n := by linarith
  refine ⟨by exact_mod_cast positive, ?_⟩
  rw [div_le_iff₀ positive, abs_le]
  push_cast
  constructor <;> linarith

theorem gateOpens {n : Nat} (some_ : n ≠ 0) {a : Agent ℚ}
    (before : ∀ prev, a.prevAppliedW = some prev → Point n prev) {w : List ℚ} (point : Point n w) :
    a.shouldApplyWeights w n = .ok (if a.prevAppliedW = none then a else a.clearPending, true) := by
  unfold Agent.shouldApplyWeights
  cases held : a.prevAppliedW with
  | none => rfl
  | some prev =>
    have prior := before prev held
    obtain ⟨positive, close⟩ := totalsClose some_ prior point
    have aligned : prev.length = w.length := prior.length.trans point.length.symm
    simp only [aligned, ne_eq, not_true, if_false, positive.ne', ratOfInt, ratAbs, ratLe, ratLit,
      decide_eq_true_eq, reduceCtorEq]
    rw [if_pos (by norm_num at close ⊢; exact close)]

theorem settleApplies {ids : List UInt32} (some_ : ids.length ≠ 0) {a : Agent ℚ}
    (before : ∀ prev, a.prevAppliedW = some prev → Point ids.length prev) (rt : Nat → Runtime)
    (m : Manager ℚ) (projected : List ℚ) {w : List ℚ} (point : Point ids.length w) :
    ∃ next, applyWeightsToRing rt m ids w = .ok next ∧ a.settle rt m ids projected w =
      .ok ⟨{ (if a.prevAppliedW = none then a else a.clearPending) with prevAppliedW := some w }, next,
        projected, .applied w⟩ :=
  settleOpen (gateOpens some_ before point) point.length.ge rt m projected

/-! ### One step -/

/-- Everything that a step with one raw weight for each backend can do. -/
inductive Advances (s : Loop) (rt : Nat → Runtime) (state : List ℚ) (ids : List UInt32)
    (cbf : CBFProjector ℚ) (projected : List ℚ) : Loop → Prop where
  | frozen (halted : cbf.isFrozen = true) : Advances s rt state ids cbf projected
      ⟨{ s.agent with ood := s.agent.ood.observe state, cbf := cbf }, s.ring, some projected,
        some .frozen⟩
  | applied {next : Manager ℚ} {pendingW : Option (List ℚ)} {agreements : Int} {w : List ℚ}
      (running : cbf.isFrozen = false)
      (smoothed : w = s.agent.smooth (s.agent.modelWeight state) projected)
      (written : applyWeightsToRing rt s.ring ids w = .ok next)
      (pending : s.agent.pendingW = none → pendingW = none) :
      Advances s rt state ids cbf projected
        ⟨{ s.agent with
            ood := s.agent.ood.observe state
            cbf := cbf
            prevW := some w
            prevAppliedW := some w
            pendingW := pendingW
            pendingAgreements := agreements }, next, some projected, some (.applied w)⟩

theorem modelWeightUnit {ids : List UInt32} {s : Loop} (balanced : Balanced ids s) (state : List ℚ) :
    0 ≤ s.agent.modelWeight state ∧ s.agent.modelWeight state ≤ 1 := by
  obtain ⟨low, high⟩ := balanced.smoothing
  apply actionWeightUnit balanced.limit
  · rw [ratLit]
    linarith
  · rw [ratLit]
    linarith

theorem takeAdvances {ids : List UInt32} (some_ : ids.length ≠ 0) {s : Loop} (balanced : Balanced ids s)
    (rt : Nat → Runtime) {state : List ℚ} {weights : Weights ℚ} {rawW : List ℚ}
    (raw : s.agent.rawFrom state ids.length weights = .ok rawW) (counted : rawW.length = ids.length)
    (failure : Option (CBFError ℚ)) : ∃ t, s.take rt state ids weights failure = .ok t ∧
      Advances s rt state ids (s.agent.projection state ids rawW failure).1
        (s.agent.projection state ids rawW failure).2.1 t := by
  obtain ⟨_, point⟩ := projectionPoint some_ balanced.safe state counted failure
  obtain ⟨low, high⟩ := modelWeightUnit balanced state
  have smoothed := smoothPoint low high balanced.smoothed point
  simp only [Loop.take, raw, bind, Except.bind, Agent.stepFrom]
  cases running : (s.agent.projection state ids rawW failure).1.isFrozen with
  | true => exact ⟨_, rfl, .frozen running⟩
  | false =>
    have prior : ∀ prev, s.agent.prevAppliedW = some prev → Point ids.length prev :=
      fun prev held => (balanced.applied prev held).1
    obtain ⟨next, written, settled⟩ := settleApplies
      (a := { s.agent with
        ood := s.agent.ood.observe state
        cbf := (s.agent.projection state ids rawW failure).1
        prevW := some (s.agent.smooth (s.agent.modelWeight state)
          (s.agent.projection state ids rawW failure).2.1) })
      some_ prior rt s.ring (s.agent.projection state ids rawW failure).2.1 smoothed
    simp only [Bool.false_eq_true, if_false, settled]
    cases held : s.agent.prevAppliedW with
    | none => exact ⟨_, rfl, .applied running rfl written id⟩
    | some prev => exact ⟨_, rfl, .applied running rfl written fun _ => rfl⟩

theorem takeBalanced {ids : List UInt32} (some_ : ids.length ≠ 0) (distinct : ids.Nodup) {s t : Loop}
    (balanced : Balanced ids s) {rt : Nat → Runtime} {state : List ℚ} {weights : Weights ℚ}
    {failure : Option (CBFError ℚ)}
    (fits : ∀ rawW, s.agent.rawFrom state ids.length weights = .ok rawW → rawW.length = ids.length)
    (taken : s.take rt state ids weights failure = .ok t) : Balanced ids t := by
  obtain ⟨rawW, raw⟩ := takeRaw taken
  obtain ⟨safe, point⟩ := projectionPoint some_ balanced.safe state (fits rawW raw) failure
  obtain ⟨low, high⟩ := modelWeightUnit balanced state
  have kept := smoothPoint low high balanced.smoothed point
  have limit := observeThreshold s.agent.ood state
  obtain ⟨_, same, advances⟩ := takeAdvances some_ balanced rt raw (fits rawW raw) failure
  cases taken.symm.trans same
  cases advances with
  | frozen halted =>
    exact ⟨balanced.smoothing, limit ▸ balanced.limit, balanced.registered, safe,
      fun w same => Option.some.inj same ▸ point, balanced.smoothed, balanced.applied⟩
  | applied running smoothed written pending =>
    rw [← smoothed] at kept
    refine ⟨balanced.smoothing, limit ▸ balanced.limit, ?_, safe,
      fun w same => Option.some.inj same ▸ point, fun w same => Option.some.inj same ▸ kept, ?_⟩
    · exact fun id known => registeredApplied rt written id (balanced.registered id known)
    · intro w same
      cases same
      exact ⟨kept, writtenApplied rt distinct balanced.registered written⟩

theorem execBalanced {ids : List UInt32} (some_ : ids.length ≠ 0) (distinct : ids.Nodup) {s t : Loop}
    {e : LoopEvent} (balanced : Balanced ids s) (fits : Fits ids.length s e)
    (taken : s.exec ids e = some t) : Balanced ids t := by
  cases e with
  | step rt state weights failure =>
    exact takeBalanced some_ distinct balanced fits (goReturned taken)
  | setMode mode manualWeights =>
    cases taken
    unfold Agent.setMode
    dsimp only
    split
    · exact ⟨balanced.smoothing, balanced.limit, balanced.registered, balanced.safe,
        balanced.projected, balanced.smoothed, balanced.applied⟩
    · exact ⟨balanced.smoothing, balanced.limit, balanced.registered, balanced.safe,
        balanced.projected, balanced.smoothed, balanced.applied⟩
  | hotReload kan =>
    cases taken
    exact ⟨balanced.smoothing, balanced.limit, balanced.registered, balanced.safe,
      balanced.projected, balanced.smoothed, balanced.applied⟩
  | resetProjector =>
    cases taken
    exact ⟨balanced.smoothing, balanced.limit, balanced.registered, balanced.safe,
      balanced.projected, balanced.smoothed, balanced.applied⟩

omit [GoRoots ℚ] in
theorem newLoopBalanced {ids : List UInt32} {actionSmoothing : ℚ} (low : 0 ≤ actionSmoothing)
    (high : actionSmoothing ≤ 1) (some_ : ids.length ≠ 0) (kan : Option (KANActor ℚ))
    (lambda capPct : ℚ) {m : Manager ℚ} (registered : ∀ id ∈ ids, id ∈ m.backends) :
    Balanced ids (newLoop actionSmoothing kan (newCBFProjector lambda capPct) m) where
  smoothing := ⟨low, high⟩
  limit := by norm_num [newLoop, newAgent, newOODDetector]
  registered := by
    intro id listed
    have known := AList.lookup_isSome.mpr (registered id listed)
    obtain ⟨b, found⟩ := Option.isSome_iff_exists.mp known
    simp [vnodesOf, newLoop, found]
  safe := fun empty => absurd empty.symm some_
  projected := fun _ none_ => by contradiction
  smoothed := fun _ none_ => by contradiction
  applied := fun _ none_ => by contradiction

theorem runBalanced {ids : List UInt32} (some_ : ids.length ≠ 0) (distinct : ids.Nodup) {s t : Loop}
    (balanced : Balanced ids s) {events : List LoopEvent}
    (run : Run (Guarded (Fits ids.length) (Does (Loop.exec ids))) s events t) : Balanced ids t := by
  have preserved : ∀ (u : Loop) e v, Balanced ids u → Fits ids.length u e →
      Does (Loop.exec ids) u e v → Balanced ids v :=
    fun _ _ _ balanced fits taken => execBalanced some_ distinct balanced fits taken
  exact StepRun.guardedInvariant preserved run balanced

end Roots

/-- The vnodes of the backends, added up. -/
def vnodeTotal (ids : List UInt32) (m : Manager ℚ) : Int := (ids.map fun id => (vnodesOf m id).getD 0).sum

theorem writtenTotal {ids : List UInt32} {w : List ℚ} {m : Manager ℚ} (aligned : w.length = ids.length)
    {n : Nat} (written : ∀ (i : Nat) id x, ids[i]? = some id → w[i]? = some x →
      vnodesOf m id = some (allotted n x)) : vnodeTotal ids m = totalCount w n := by
  induction ids generalizing w with
  | nil =>
    cases List.length_eq_zero_iff.mp aligned
    rfl
  | cons id rest ih =>
    obtain ⟨x, w, rfl⟩ := List.exists_cons_of_length_eq_add_one aligned
    have head := written 0 id x rfl rfl
    have tail := ih (Nat.succ.inj aligned) fun i id x atId atX => written (i + 1) id x atId atX
    unfold vnodeTotal totalCount at tail ⊢
    rw [List.map_cons, List.sum_cons, List.map_cons, List.sum_cons, tail, head, vnodeCountRat]
    rfl

/-- In every run over a set of registered backends. -/
theorem agentInvariant [GoRoots ℚ] {ids : List UInt32} (some_ : ids ≠ []) (distinct : ids.Nodup)
    {actionSmoothing : ℚ} (low : 0 ≤ actionSmoothing) (high : actionSmoothing ≤ 1)
    (kan : Option (KANActor ℚ)) (lambda capPct : ℚ) {m : Manager ℚ}
    (registered : ∀ id ∈ ids, id ∈ m.backends) {events : List LoopEvent} {s : Loop}
    (run : Run (Guarded (Fits ids.length) (Does (Loop.exec ids)))
      (newLoop actionSmoothing kan (newCBFProjector lambda capPct) m) events s) :
    (∀ w, s.projected = some w → OnSimplex w) ∧ (∀ w, s.agent.prevW = some w → OnSimplex w) ∧
      ∀ w, s.agent.prevAppliedW = some w → OnSimplex w ∧
        (∀ (i : Nat) id x, ids[i]? = some id → w[i]? = some x →
          vnodesOf s.ring id = some (max (roundHalfAway (x * 150 * ids.length)) 1)) ∧
        150 * (ids.length : ℚ) - ids.length / 2 ≤ vnodeTotal ids s.ring ∧
        (vnodeTotal ids s.ring : ℚ) ≤ 150 * ids.length + ids.length := by
  have nonzero : ids.length ≠ 0 := fun zero => some_ (List.length_eq_zero_iff.mp zero)
  have start := newLoopBalanced low high nonzero kan lambda capPct registered
  have balanced := runBalanced nonzero distinct start run
  refine ⟨fun w held => (balanced.projected w held).simplex,
    fun w held => (balanced.smoothed w held).simplex, fun w held => ?_⟩
  obtain ⟨point, written⟩ := balanced.applied w held
  rw [writtenTotal point.length written]
  exact ⟨point.simplex, written, pointTotal point⟩

theorem projectionRuns [GoRoots ℚ] (a : Agent ℚ) {ids : List UInt32} (some_ : ids.length ≠ 0)
    (state : List ℚ) {rawW : List ℚ} (counted : rawW.length = ids.length) :
    (a.projection state ids rawW none).1.isFrozen = false := by
  have nonempty : rawW ≠ [] := fun empty => some_ (by rw [← counted, empty, List.length_nil])
  have paired : (ids.map fun id => CBFBackendState.mk id (GoFloat.lit 0 : ℚ)).length =
      rawW.length := by rw [List.length_map, counted]
  simp only [Agent.projection, projectDescends a.cbf state paired nonempty]
  rfl

def pair : Manager ℚ := registered.addBackend .plain { id := 2, health := true }

theorem pairKnown : ∀ id ∈ [(1 : UInt32), 2], id ∈ pair.backends := by
  intro id listed
  rcases List.mem_pair.mp listed with rfl | rfl <;> decide +kernel

instance [GoRoots ℚ] (n : Nat) (s : Loop) : (e : LoopEvent) → Decidable (Fits n s e)
  | .step _ state weights _ => decidable_of_iff
      (((s.agent.rawFrom state n weights).toOption.all fun rawW => rawW.length == n) = true) (by
        cases known : s.agent.rawFrom state n weights <;> simp [Fits, known, Except.toOption])
  | .setMode _ _ | .hotReload _ | .resetProjector => .isTrue trivial

def servedStep (weights : Weights ℚ) (failure : Option (CBFError ℚ)) : LoopEvent :=
  .step (fun _ => .plain) (List.replicate 20 0) weights failure

/-- Uniform weights for a failing projection, then raw weights that sum to nine. -/
def twoModes : List LoopEvent :=
  [.setMode .manual [3 / 4, 1 / 4], servedStep (.asked .answered) (some (.countMismatch 1 2)),
    .setMode .assisted [], servedStep (.given [7, 2]) none]

theorem twoBackendsBalanced : ∃ (_ : GoRoots ℚ) (s : Loop) (w : List ℚ),
    s.agent.prevAppliedW = some w ∧ OnSimplex w ∧ vnodesOf s.ring 1 ≠ vnodesOf s.ring 2 ∧
      vnodesOf s.ring 2 = some (max (roundHalfAway (w.getD 1 0 * 150 * 2)) 1) ∧
      (299 : ℚ) ≤ vnodeTotal [1, 2] s.ring ∧ (vnodeTotal [1, 2] s.ring : ℚ) ≤ 302 := by
  let roots : GoRoots ℚ := ⟨id, id⟩
  have done : (StepRun.runGuarded (Fits 2) (Loop.exec [1, 2])
      (newLoop (1 / 4) none (newCBFProjector 0 0) pair) twoModes).any (fun s =>
        decide (s.agent.prevAppliedW = some [7 / 8, 1 / 8] ∧
          vnodesOf s.ring 1 ≠ vnodesOf s.ring 2)) = true := by decide +kernel
  obtain ⟨s, run, reached⟩ := StepRun.runGuardedAny done
  obtain ⟨last, uneven⟩ := of_decide_eq_true reached
  obtain ⟨_, _, applied⟩ := agentInvariant (List.cons_ne_nil _ _) (by simp) (by norm_num) (by norm_num)
    none 0 0 pairKnown run
  obtain ⟨simplex, written, least, most⟩ := applied _ last
  refine ⟨roots, s, _, last, simplex, uneven, written 1 2 _ rfl rfl, ?_, ?_⟩
  · exact le_trans (by norm_num) least
  · exact most.trans (by norm_num)

end OmegaLb.Rl
