import OmegaLb.RingInvariant

/-! Route returns for every ring unless the request counter is reduced modulo a
zero AdjustEveryN; then it panics as soon as a backend has been chosen. -/
namespace OmegaLb.RingRoute
open RingManager RingInvariant
open StepRun (Run)
open Config (RingConfig RingSection load daemonRing)
open RingHash (murmur3Finalise)

/-! ### Indices -/

theorem bisectLoopOk (ring : List Vnode) (pos : UInt32) (lo hi : Nat) (ordered : lo ≤ hi)
    (bound : hi ≤ ring.length) : ∃ k, bisectLoop ring pos lo hi = .ok k ∧ lo ≤ k ∧ k ≤ hi := by
  fun_induction bisectLoop ring pos lo hi with
  | case1 lo hi below mid p failed =>
    obtain ⟨vn, _, found⟩ := @goIndexOk Vnode ring mid (by omega) (by omega)
    rw [found] at failed
    contradiction
  | case2 lo hi below mid vn found le ih =>
    obtain ⟨k, ok, low, high⟩ := ih (by omega) bound
    exact ⟨k, ok, by omega, high⟩
  | case3 lo hi below mid vn found le ih =>
    obtain ⟨k, ok, low, high⟩ := ih (by omega) (by omega)
    exact ⟨k, ok, low, by omega⟩
  | case4 lo hi below => exact ⟨lo, rfl, Nat.le_refl lo, ordered⟩

variable {F : Type}

theorem bisectRightOk {m : Manager F} (nonempty : m.ring.length ≠ 0) (pos : UInt32) :
    ∃ idx, m.bisectRight pos = .ok idx ∧ idx < m.ring.length := by
  obtain ⟨lo, ok, _, _⟩ := bisectLoopOk m.ring pos 0 m.ring.length (Nat.zero_le _) (Nat.le_refl _)
  refine ⟨if lo ≥ m.ring.length then 0 else lo, ?_, ?_⟩
  · simp [Manager.bisectRight, ok, bind, Except.bind, pure, Except.pure]
  · split <;> omega

/-! ### A non-empty ring always yields a backend -/

theorem leastLoadedSome (rt : Runtime) {m : Manager F} {b : Backend}
    (registered : b ∈ GoMap.values m.backends) (eligible : b.eligible = true) :
    ∃ least, m.leastLoaded rt = some least := by
  rw [Manager.leastLoaded, coolerKeeps]
  apply FirstLeast.keptSome
  exact List.ne_nil_of_mem
    (List.mem_filter.mpr ⟨(rt.orderPerm _).mem_iff.mpr registered, eligible⟩)

theorem someoneEligible {m : Manager F} (sound : Sound m) (nonempty : m.ring.length ≠ 0) :
    ∃ b ∈ GoMap.values m.backends, b.eligible = true := by
  obtain ⟨vn, onRing⟩ := List.exists_mem_of_length_pos (Nat.pos_of_ne_zero nonempty)
  obtain ⟨b, found, eligible⟩ := ringRegistered sound onRing
  exact ⟨b, GoMap.memValues.mpr ⟨_, found⟩, eligible⟩

theorem setFieldCfg (rt : Runtime) (m : Manager F) (id : UInt32) (write : Backend → Backend) :
    (m.setField rt id write).cfg = m.cfg := by
  unfold Manager.setField
  split <;> rfl

variable [GoFloat F]

theorem probeRingOk {m : Manager F} (sound : Sound m) (nonempty : m.ring.length ≠ 0) (idx : Nat)
    (remaining probe : Nat) : ∃ found, m.probeRing idx remaining probe = .ok found := by
  induction remaining generalizing probe with
  | zero => exact ⟨none, rfl⟩
  | succ remaining ih =>
    have divisor : (m.ring.length : Int) ≠ 0 := by omega
    have rem := goRemOk (a := (idx : Int) + probe) divisor
    have positive : 0 < (m.ring.length : Int) := by omega
    have low : 0 ≤ ((idx : Int) + probe).tmod m.ring.length := Int.tmod_nonneg _ (by omega)
    have high : ((idx : Int) + probe).tmod m.ring.length < m.ring.length :=
      Int.tmod_lt_of_pos _ positive
    obtain ⟨vn, onRing, read⟩ := goIndexOk low high
    obtain ⟨b, registered, _⟩ := ringRegistered sound onRing
    simp only [Manager.probeRing, rem, read, registered, bind, Except.bind]
    split
    · exact ih _
    · split
      · exact ih _
      · exact ⟨some b, rfl⟩

theorem routeChooses (rt : Runtime) {m : Manager F} (sound : Sound m)
    (nonempty : m.ring.length ≠ 0) (key : UInt32) :
    ∃ chosen, m.route rt key =
      (goRem (m.reqCount + 1) m.cfg.adjustEveryN).bind fun turn =>
        let counted := { m with
          backends := GoMap.modify m.backends chosen Backend.countRequest
          reqCount := m.reqCount + 1 }
        .ok (if turn = 0 then counted.adjust rt else counted, .ok chosen) := by
  obtain ⟨idx, bisect, _⟩ := bisectRightOk nonempty (murmur3Finalise key)
  obtain ⟨found, probe⟩ := probeRingOk sound nonempty idx m.ring.length 0
  obtain ⟨b, registered, eligible⟩ := someoneEligible sound nonempty
  obtain ⟨least, fallback⟩ := leastLoadedSome rt registered eligible
  have some_ : ∃ chosen, (found <|> m.leastLoaded rt) = some chosen := by
    cases found with
    | none => exact ⟨least, by simpa using fallback⟩
    | some b => exact ⟨b, rfl⟩
  obtain ⟨chosen, pick⟩ := some_
  refine ⟨chosen.id, ?_⟩
  unfold Manager.route
  rw [if_neg nonempty]
  simp only [bisect, probe, pick, bind, Except.bind, pure, Except.pure]

theorem routeReturns (rt : Runtime) {m : Manager F} (sound : Sound m)
    (divisor : m.cfg.adjustEveryN ≠ 0) (key : UInt32) : ∃ out, m.route rt key = .ok out := by
  by_cases empty : m.ring.length = 0
  · exact ⟨_, if_pos empty⟩
  · obtain ⟨chosen, routed⟩ := routeChooses rt sound empty key
    rw [goRemOk divisor] at routed
    exact ⟨_, routed⟩

theorem routeDividesByZero (rt : Runtime) {m : Manager F} (sound : Sound m)
    (nonempty : m.ring.length ≠ 0) (zero : m.cfg.adjustEveryN = 0) (key : UInt32) :
    m.route rt key = .error .divideByZero := by
  obtain ⟨chosen, routed⟩ := routeChooses rt sound nonempty key
  rw [routed, zero]
  rfl

/-! ### The configuration never changes -/

theorem adjustCfg (rt : Runtime) (m : Manager F) : (m.adjust rt).cfg = m.cfg := by
  unfold Manager.adjust
  dsimp only
  split
  · split
    · rfl
    · split
      · split <;> rfl
      · rfl
  · rfl

theorem slowStartTickCfg (rt : Runtime) (m : Manager F) (errorRate : Option (UInt32 → F)) :
    (m.slowStartTick rt errorRate).cfg = m.cfg :=
  slowStartTickKeeps (P := fun n => n.cfg = m.cfg) rt errorRate (fun _ _ held => held)
    (fun n id _ held => (setFieldCfg rt n id _).trans held) rfl

theorem routeCfg (rt : Runtime) {m : Manager F} {key : UInt32}
    {out : Manager F × Except RouteError UInt32} (routed : m.route rt key = .ok out) :
    out.1.cfg = m.cfg :=
  routeKeeps (P := fun n => n.cfg = m.cfg) rt rfl (fun _ => rfl) (fun n held => (adjustCfg rt n).trans held)
    routed

theorem applyCfg (rt : Runtime) {m next : Manager F} {op : Op F} (taken : m.apply rt op = .ok next) :
    next.cfg = m.cfg := by
  cases op with
  | addBackend b => cases taken; rfl
  | removeBackend id => cases taken; rfl
  | setHealth id healthy => cases taken; exact setFieldCfg rt m id _
  | setDraining id draining => cases taken; exact setFieldCfg rt m id _
  | setDrainingAll draining => cases taken; rfl
  | setVnodeCount id count => cases taken; exact setFieldCfg rt m id _
  | releaseConn id => cases taken; rfl
  | route key =>
    simp only [Manager.apply, bind, Except.bind] at taken
    split at taken <;> try contradiction
    rename_i routed
    cases taken
    exact routeCfg rt routed
  | proactiveAdjust loadWindow => cases taken; rfl
  | beginSlowStart id =>
    cases taken
    unfold Manager.beginSlowStart
    split <;> rfl
  | cancelSlowStart id => cases taken; rfl
  | slowStartTick errorRate => cases taken; exact slowStartTickCfg rt m errorRate

theorem newManagerAdjustEveryN (cfg : RingConfig F) :
    (newManager cfg).cfg.adjustEveryN = cfg.adjustEveryN := by
  unfold newManager
  dsimp only
  split <;> split <;> rfl

theorem runAdjustEveryN {cfg : RingConfig F} {ops m} (run : Run Step (newManager cfg) ops m) :
    m.cfg.adjustEveryN = cfg.adjustEveryN := by
  have preserved : ∀ (s : Manager F) e t, s.cfg.adjustEveryN = cfg.adjustEveryN → Step s e t →
      t.cfg.adjustEveryN = cfg.adjustEveryN := by
    intro s e t held taken
    rw [applyCfg e.1 taken]
    exact held
  exact StepRun.runInvariant preserved run (newManagerAdjustEveryN cfg)

/-! ### No panic in any run -/

/-- After every run of the manager's operations every Route call returns, with a
backend id or with an error. -/
def RouteSafe (cfg : RingConfig F) : Prop :=
  ∀ ops m, Run Step (newManager cfg) ops m → ∀ rt key, ∃ out, m.route rt key = .ok out

def oneBackend : List (Runtime × Op F) :=
  [(.plain, .addBackend { id := 1, health := true }), (.plain, .setVnodeCount 1 1)]

theorem oneBackendRing (cfg : RingConfig F) :
    ∃ m, Run Step (newManager cfg) oneBackend m ∧ m.ring.length ≠ 0 := by
  let first := (newManager cfg).addBackend .plain { id := 1, health := true }
  let m := first.setVnodeCount .plain 1 1
  have run : Run Step (newManager cfg) oneBackend m := .cons rfl (.cons rfl (.nil m))
  have found : first.backends.lookup 1 =
      some { id := 1, health := true, vnodeCount := (newManager cfg).cfg.vnodesPerServer } :=
    addBackendLookup .plain (newManager cfg) { id := 1, health := true } (AList.notMem_empty _)
  have registered : (1 : UInt32) ∈ first.backends :=
    AList.lookup_isSome.mp (by simp [found])
  have counted : m.backends.lookup 1 = some { id := 1, health := true, vnodeCount := 1 } := by
    simp [m, Manager.setVnodeCount, Manager.setField, registered, GoMap.lookupModify, found]
  obtain ⟨vn, onRing, _⟩ := (ownerExact (runSound run) 1).mpr ⟨_, counted, rfl, Int.le_refl 1⟩
  exact ⟨m, run, Nat.ne_of_gt (List.length_pos_of_mem onRing)⟩

theorem routeSafeExact (cfg : RingConfig F) : RouteSafe cfg ↔ cfg.adjustEveryN ≠ 0 := by
  constructor
  · intro safe zero
    obtain ⟨m, run, nonempty⟩ := oneBackendRing cfg
    obtain ⟨out, returned⟩ := safe _ m run .plain 0
    have panicked := routeDividesByZero .plain (runSound run) nonempty
      ((runAdjustEveryN run).trans zero) 0
    rw [panicked] at returned
    contradiction
  · intro divisor ops m run rt key
    exact routeReturns rt (runSound run) ((runAdjustEveryN run).trans_ne divisor) key

theorem stageOnePanics : ∃ m, Run Step (newManager (daemonRing 1 (load ({} : RingSection ℚ))))
    oneBackend m ∧ m.route .plain 42 = .error .divideByZero := by
  obtain ⟨m, run, nonempty⟩ := oneBackendRing (daemonRing 1 (load ({} : RingSection ℚ)))
  have zero : m.cfg.adjustEveryN = 0 := (runAdjustEveryN run).trans (by decide)
  exact ⟨m, run, routeDividesByZero .plain (runSound run) nonempty zero 42⟩

end OmegaLb.RingRoute
