import OmegaLb.AgentBalance
import OmegaLb.StatefulVnodes

/-! MANUAL mode beside the controllers of the ring. The agent decides a step and then takes the
ring's lock once for each backend, so that requests, proactive ticks and operators may come
between. Neither adjust nor ProactiveAdjust asks which mode the agent is in. -/
namespace OmegaLb.Rl
open CbfProjector
open Metrics (Collector)
open RingManager (Manager Runtime Backend Op hotter cooler newManager)
open RingInvariant (Sound)
open RingReference (counted routeTarget)
open StatefulVnodes (Migrates)
open StepRun (Run Guarded Does)

variable {F : Type} [GoMath F]

/-! ### What the controllers do to the counts -/

def SameCounts (m next : Manager F) : Prop :=
  ∀ id, (next.backends.lookup id).map Backend.vnodeCount = (m.backends.lookup id).map Backend.vnodeCount

/-- The tests of adjust, all passed. -/
def Shifts (rt : Runtime) (m : Manager F) : Prop :=
  ∃ hottest coolest,
    ((rt.order (GoMap.values m.backends)).filter Backend.adjustable).foldl hotter none = some hottest ∧
    ((rt.order (GoMap.values m.backends)).filter Backend.adjustable).foldl cooler none = some coolest ∧
    hottest.id ≠ coolest.id ∧
    GoFloat.gt (GoFloat.ofInt hottest.activeReqs) (m.cfg.adjustThreshold * m.mean) = true ∧
    1 < hottest.vnodeCount

omit [GoMath F] in
theorem countedSame (m : Manager F) (id : UInt32) : SameCounts m (counted m id) := by
  intro k
  unfold counted
  dsimp only
  rw [GoMap.lookupModify]
  split
  · rename_i same
    subst same
    rw [Option.map_map]
    rfl
  · rfl

theorem adjustSame (rt : Runtime) {m : Manager F} (sound : Sound m) :
    SameCounts m (m.adjust rt) ↔ ¬ Shifts rt m := by
  unfold Manager.adjust Shifts
  dsimp only
  split
  · rename_i hottest coolest foundHot foundCool
    have hot := RingWrites.hottestRegistered sound rt foundHot
    split
    · rename_i same
      refine iff_of_true (fun _ => rfl) ?_
      rintro ⟨h, c, atHot, atCool, apart, _⟩
      cases foundHot.symm.trans atHot
      cases foundCool.symm.trans atCool
      exact apart same
    · rename_i apart
      split
      · rename_i passed
        split
        · rename_i many
          refine iff_of_false (fun same => ?_)
            (not_not.mpr ⟨hottest, coolest, foundHot, foundCool, apart, passed, many⟩)
          have moved := same hottest.id
          rw [RingInvariant.rebuildBackends] at moved
          simp only [GoMap.lookupModify, if_neg apart, if_pos, hot, Option.map_some,
            RingManager.Backend.addVnodes, Option.some.injEq] at moved
          omega
        · rename_i few
          refine iff_of_true (fun _ => rfl) ?_
          rintro ⟨h, c, atHot, atCool, _, _, many⟩
          cases foundHot.symm.trans atHot
          exact few many
      · rename_i under
        refine iff_of_true (fun _ => rfl) ?_
        rintro ⟨h, c, atHot, atCool, _, passed, _⟩
        cases foundHot.symm.trans atHot
        exact under passed
  · rename_i nobody
    refine iff_of_true (fun _ => rfl) ?_
    rintro ⟨h, c, atHot, atCool, _⟩
    exact nobody h c atHot atCool

theorem routeSame (rt : Runtime) {m next : Manager F} (sound : Sound m) {key : UInt32}
    (taken : m.apply rt (.route key) = .ok next) : SameCounts m next ↔
      (m.ring.length ≠ 0 → ∀ b, routeTarget rt m key = some b →
        goRem (m.reqCount + 1) m.cfg.adjustEveryN = .ok 0 → ¬ Shifts rt (counted m b.id)) := by
  by_cases empty : m.ring.length = 0
  · have idle : m.apply rt (.route key) = .ok m := by
      simp only [Manager.apply, Manager.route, if_pos empty, bind, Except.bind]
      rfl
    cases idle.symm.trans taken
    exact iff_of_true (fun _ => rfl) fun some_ => absurd empty some_
  · obtain ⟨b, target, _, _, _⟩ := RingReference.routeTargets rt sound empty key
    have follows := RingReference.routeFollows rt sound empty key target
    have before := countedSame m b.id
    have shifted : SameCounts m ((counted m b.id).adjust rt) ↔ ¬ Shifts rt (counted m b.id) := by
      refine Iff.trans ?_ (adjustSame rt (RingReference.countedSound sound b.id))
      exact forall_congr' fun id => by rw [before id]
    simp only [Manager.apply, follows, bind] at taken
    cases turn : goRem (m.reqCount + 1) m.cfg.adjustEveryN with
    | error p =>
      rw [turn] at taken
      contradiction
    | ok r =>
      rw [turn] at taken
      cases taken
      dsimp only
      by_cases due : r = 0
      · subst due
        rw [if_pos rfl, shifted]
        constructor
        · intro still _ c known _
          cases target.symm.trans known
          exact still
        · exact fun spares => spares empty b target rfl
      · rw [if_neg due]
        exact iff_of_true before fun _ _ _ now => absurd (Except.ok.inj now) due

theorem proactiveSame (rt : Runtime) (m : Manager F) (loadWindow : GoMap UInt32 (List F)) :
    SameCounts m (m.proactiveAdjust rt loadWindow) ↔
      ∀ id samples b, loadWindow.lookup id = some samples → m.backends.lookup id = some b →
        ¬ Migrates samples b := by
  have after : ∀ id, (m.proactiveAdjust rt loadWindow).backends.lookup id =
      (m.backends.lookup id).map fun b =>
        ((loadWindow.lookup id).map fun samples => RingManager.preMigrate samples b).getD b :=
    StatefulVnodes.migrateLookup loadWindow.entries loadWindow.nodupKeys m.backends
  constructor
  · intro same id samples b listed found
    have count := same id
    rw [after, found, listed] at count
    exact (StatefulVnodes.migrateCount samples b).mp (Option.some.inj count)
  · intro spares id
    rw [after]
    cases found : m.backends.lookup id with
    | none => rfl
    | some b =>
      cases listed : loadWindow.lookup id with
      | none => rfl
      | some samples =>
        have count := (StatefulVnodes.migrateCount samples b).mpr (spares id samples b listed found)
        exact congrArg some count

/-! ### The agent and the ring -/

/-- `applying` from the decision to the last write, `held` from there until the mode changes. -/
inductive Status where
  | free
  | applying
  | held
  deriving DecidableEq, Repr

structure Shared (F : Type) where
  agent : Agent F
  ring : Manager F
  writing : List (UInt32 × Int)
  status : Status

def newShared (a : Agent F) (m : Manager F) : Shared F := ⟨a, m, [], .free⟩

/-- A ring operation is any call of the others: requests, proactive ticks, operators. -/
inductive SharedEvent (F : Type) where
  | ring (rt : Runtime) (op : Op F)
  | step (rt : Nat → Runtime) (collector : Option (Collector F)) (wait : Wait)
  | write (rt : Runtime)
  | setMode (mode : AgentMode) (manualWeights : List F)
  | hotReload (kan : KANActor F)
  | resetProjector

/-- The SetVnodeCount calls that an outcome leads to. -/
def Outcome.writes (ids : List UInt32) : Outcome F → List (UInt32 × Int)
  | .frozen => []
  | .held _ => []
  | .applied w => ids.zip (w.map fun x => vnodeCount x vnodeBase ids.length)

section Roots
variable [GoRoots F]

/-- The step with its writes left to do. -/
def Shared.decide (s : Shared F) (rt : Nat → Runtime) (state : List F) (ids : List UInt32)
    (wait : Wait) : Go (Shared F) := do
  let rawW ← s.agent.rawFrom state ids.length (.asked wait)
  let r ← s.agent.stepFrom rt s.ring state ids rawW none
  let manual := s.agent.mode = .manual ∧ s.agent.manualWeights.length = ids.length
  let writing := r.outcome.writes ids
  let status := if manual ∧ writing ≠ [] ∧ s.status = .free then .applying else s.status
  return { s with agent := r.agent, writing := writing, status := status }

def Shared.exec (s : Shared F) : SharedEvent F → Option (Shared F)
  | .ring rt op => (s.ring.apply rt op).toOption.map fun m => { s with ring := m }
  | .step rt collector wait =>
    -- the agent is one goroutine, so it starts no step before its writes are done
    if s.writing ≠ [] then none
    else
      let (state, ids) := collectState rt collector
      if ids.length = 0 then some s else (s.decide (fun k => rt (k + 2)) state ids wait).toOption
  | .write rt =>
    match s.writing with
    | [] => none
    | (id, count) :: rest => some { s with
        ring := s.ring.setVnodeCount rt id count
        writing := rest
        status := if rest = [] ∧ s.status = .applying then .held else s.status }
  | .setMode mode manualWeights => some { s with
      agent := s.agent.setMode mode manualWeights
      status := if mode = .manual then s.status else .free }
  | .hotReload kan => some { s with agent := s.agent.hotReload kan }
  | .resetProjector => some { s with agent.cbf := s.agent.cbf.reset }

end Roots

/-- The writes, one after the other, are what applyWeightsToRing does. -/
theorem writesApply (rt : Nat → Runtime) {w : List F} {n : Int} (m : Manager F) (i : Nat)
    {ids : List UInt32} (aligned : i + ids.length ≤ w.length) : applyFrom rt w n m i ids =
      .ok (((ids.zip ((w.drop i).map fun x => vnodeCount x vnodeBase n)).zipIdx i).foldl
        (fun m e => m.setVnodeCount (rt e.2) e.1.1 e.1.2) m) := by
  induction ids generalizing m i with
  | nil => rfl
  | cons id rest ih =>
    rw [List.length_cons] at aligned
    have inside : i < w.length := by omega
    have found : goIndex w i = .ok w[i] := goIndexFound (List.getElem?_eq_getElem inside)
    rw [applyFrom, found, List.drop_eq_getElem_cons inside]
    exact ih _ (i + 1) (by omega)

/-! ### Every run -/

def Held (s : Shared F) (e : SharedEvent F) (t : Shared F) : Prop :=
  s.status = .held → ∀ rt op, e = .ring rt op →
    ((∃ key, op = .route key) ∨ ∃ window, op = .proactiveAdjust window) → SameCounts s.ring t.ring

/-- While the distribution is held, no request comes to an adjustment whose tests all pass, and
no tick finds a backend that it would migrate. -/
def Undisturbed (s : Shared F) (e : SharedEvent F) : Prop :=
  s.status = .held →
    (∀ rt key, e = .ring rt (.route key) → s.ring.ring.length ≠ 0 → ∀ b,
      routeTarget rt s.ring key = some b →
      goRem (s.ring.reqCount + 1) s.ring.cfg.adjustEveryN = .ok 0 →
      ¬ Shifts rt (counted s.ring b.id)) ∧
    ∀ rt window, e = .ring rt (.proactiveAdjust window) → ∀ id samples b,
      window.lookup id = some samples → s.ring.backends.lookup id = some b → ¬ Migrates samples b

variable [GoRoots F]

theorem stepRing {s t : Shared F} {rt : Nat → Runtime} {collector : Option (Collector F)} {wait : Wait}
    (taken : s.exec (.step rt collector wait) = some t) : t.ring = s.ring := by
  simp only [Shared.exec] at taken
  split at taken
  · contradiction
  · split at taken
    · cases taken
      rfl
    · have decided := goReturned taken
      unfold Shared.decide at decided
      simp only [bind, Except.bind] at decided
      split at decided
      · contradiction
      · split at decided
        · contradiction
        · cases decided
          rfl

theorem sharedSound {s t : Shared F} {e : SharedEvent F} (sound : Sound s.ring)
    (taken : s.exec e = some t) : Sound t.ring := by
  cases e with
  | ring rt op =>
    obtain ⟨m, applied, rfl⟩ := Option.map_eq_some_iff.mp taken
    exact RingInvariant.applySound rt sound (goReturned applied)
  | step rt collector wait => exact stepRing taken ▸ sound
  | write rt =>
    simp only [Shared.exec] at taken
    split at taken
    · contradiction
    · cases taken
      exact RingInvariant.setVnodeCountSound rt sound _ _
  | setMode mode manualWeights =>
    cases taken
    exact sound
  | hotReload kan =>
    cases taken
    exact sound
  | resetProjector =>
    cases taken
    exact sound

/-! ### What the status says -/

structure Marked (s : Shared F) : Prop where
  manual : s.status ≠ .free → s.agent.mode = .manual
  pending : s.status = .applying → s.writing ≠ []

theorem gateMode {a next : Agent F} {w : List F} {n : Int} {apply : Bool}
    (gate : a.shouldApplyWeights w n = .ok (next, apply)) : next.mode = a.mode := by
  unfold Agent.shouldApplyWeights at gate
  split at gate
  · cases gate
    rfl
  · split at gate
    · cases gate
      rfl
    · dsimp only at gate
      split at gate
      · cases gate
        rfl
      · split at gate
        · cases gate
          rfl
        · unfold Agent.holdLarge at gate
          cases agrees : a.agrees w with
          | error p =>
            rw [agrees] at gate
            contradiction
          | ok agreed =>
            rw [agrees] at gate
            cases agreed with
            | true =>
              simp only [bind, Except.bind, if_true] at gate
              split at gate <;> (cases gate; rfl)
            | false =>
              cases gate
              rfl

theorem stepFromMode {a : Agent F} {rt : Nat → Runtime} {m : Manager F} {state rawW : List F}
    {ids : List UInt32} {r : Stepped F} (stepped : a.stepFrom rt m state ids rawW none = .ok r) :
    r.agent.mode = a.mode := by
  unfold Agent.stepFrom at stepped
  simp only at stepped
  split at stepped
  · cases stepped
    rfl
  · unfold Agent.settle at stepped
    simp only [bind, Except.bind] at stepped
    split at stepped
    · contradiction
    · rename_i verdict gate
      have same := gateMode gate
      split at stepped
      · cases stepped
        exact same
      · split at stepped
        · contradiction
        · cases stepped
          exact same

omit [GoMath F] [GoRoots F] in
theorem setModeMode (a : Agent F) (mode : AgentMode) (manualWeights : List F) :
    (a.setMode mode manualWeights).mode = mode := by
  unfold Agent.setMode
  dsimp only
  split <;> rfl

theorem decideMarked {s t : Shared F} {rt : Nat → Runtime} {state : List F} {ids : List UInt32}
    {wait : Wait} (marked : Marked s) (idle : s.writing = [])
    (decided : s.decide rt state ids wait = .ok t) : Marked t := by
  unfold Shared.decide at decided
  simp only [bind, Except.bind] at decided
  split at decided
  · contradiction
  · split at decided
    · contradiction
    · rename_i r stepped
      have same := stepFromMode stepped
      cases decided
      constructor
      · dsimp only
        split
        · rename_i starts
          exact fun _ => same.trans starts.1.1
        · exact fun marks => same.trans (marked.manual marks)
      · dsimp only
        split
        · rename_i starts
          exact fun _ => starts.2.1
        · exact fun writes => absurd idle (marked.pending writes)

theorem writeMarked {s t : Shared F} {rt : Runtime} (marked : Marked s) (taken : s.exec (.write rt) = some t) :
    Marked t := by
  simp only [Shared.exec] at taken
  split at taken
  · contradiction
  · rename_i id count rest writing
    cases taken
    constructor
    · dsimp only
      split
      · rename_i last
        exact fun _ => marked.manual (by simp [last.2])
      · exact marked.manual
    · dsimp only
      split
      · exact fun writes => by contradiction
      · rename_i more
        exact fun writes done => more ⟨done, writes⟩

theorem setModeMarked {s t : Shared F} {mode : AgentMode} {manualWeights : List F} (marked : Marked s)
    (taken : s.exec (.setMode mode manualWeights) = some t) : Marked t := by
  cases taken
  constructor
  · dsimp only
    rw [setModeMode]
    split
    · exact fun _ => by assumption
    · exact fun marks => absurd rfl marks
  · dsimp only
    split
    · exact marked.pending
    · exact fun writes => by contradiction

theorem execMarked {s t : Shared F} {e : SharedEvent F} (marked : Marked s)
    (taken : s.exec e = some t) : Marked t := by
  cases e with
  | ring rt op =>
    obtain ⟨m, _, rfl⟩ := Option.map_eq_some_iff.mp taken
    exact ⟨marked.manual, marked.pending⟩
  | step rt collector wait =>
    simp only [Shared.exec] at taken
    split at taken
    · contradiction
    · rename_i idle
      split at taken
      · cases taken
        exact marked
      · exact decideMarked marked (not_not.mp idle) (goReturned taken)
  | write rt => exact writeMarked marked taken
  | setMode mode manualWeights => exact setModeMarked marked taken
  | hotReload kan =>
    cases taken
    exact ⟨marked.manual, marked.pending⟩
  | resetProjector =>
    cases taken
    exact ⟨marked.manual, marked.pending⟩

/-- Held means that the agent is in MANUAL mode. -/
theorem heldManual {actionSmoothing : F} {kan : Option (KANActor F)} {cbf : CBFProjector F}
    {cfg : Config.RingConfig F} {events : List (SharedEvent F)} {s : Shared F}
    (run : Run (Does Shared.exec)
      (newShared (newAgent actionSmoothing kan cbf) (newManager cfg)) events s)
    (held : s.status = .held) : s.agent.mode = .manual := by
  have start : Marked (newShared (newAgent actionSmoothing kan cbf) (newManager cfg)) :=
    ⟨fun marks => absurd rfl marks, fun writes => by contradiction⟩
  have preserved : ∀ (u : Shared F) e v, Marked u → Does Shared.exec u e v → Marked v :=
    fun _ _ _ marked taken => execMarked marked taken
  exact (StepRun.runInvariant preserved run start).manual (by simp [held])

omit [GoRoots F] in
theorem heldElsewhere {s t : Shared F} {e : SharedEvent F} (other : ∀ rt op, e ≠ .ring rt op) :
    Held s e t ↔ Undisturbed s e := by
  refine iff_of_true (fun _ rt op same => absurd same (other rt op)) fun _ => ⟨?_, ?_⟩
  · exact fun rt key same => absurd same (other rt _)
  · exact fun rt window same => absurd same (other rt _)

theorem sharedHeld {s t : Shared F} {e : SharedEvent F} (sound : Sound s.ring)
    (taken : s.exec e = some t) : Held s e t ↔ Undisturbed s e := by
  cases e with
  | ring rt op =>
    obtain ⟨m, applied, rfl⟩ := Option.map_eq_some_iff.mp taken
    have returned := goReturned applied
    cases op with
    | route key =>
      have exact_ := routeSame rt sound returned
      constructor
      · intro held on
        have same := held on rt _ rfl (.inl ⟨key, rfl⟩)
        refine ⟨fun _ _ own => ?_, fun _ _ own => (nomatch own)⟩
        cases own
        exact exact_.mp same
      · rintro calm on _ _ own _
        cases own
        exact exact_.mpr ((calm on).1 rt key rfl)
    | proactiveAdjust window =>
      cases returned
      have exact_ := proactiveSame rt s.ring window
      constructor
      · intro held on
        have same := held on rt _ rfl (.inr ⟨window, rfl⟩)
        refine ⟨fun _ _ own => (nomatch own), fun _ _ own => ?_⟩
        cases own
        exact exact_.mp same
      · rintro calm on _ _ own _
        cases own
        exact exact_.mpr ((calm on).2 rt window rfl)
    | _ =>
      refine iff_of_true ?_ fun _ => ⟨fun _ _ own => (nomatch own), fun _ _ own => (nomatch own)⟩
      rintro _ _ _ own (⟨_, same⟩ | ⟨_, same⟩) <;> (cases own; cases same)
  | step rt collector wait => exact heldElsewhere fun _ _ own => by contradiction
  | write rt => exact heldElsewhere fun _ _ own => by contradiction
  | setMode mode manualWeights => exact heldElsewhere fun _ _ own => by contradiction
  | hotReload kan => exact heldElsewhere fun _ _ own => by contradiction
  | resetProjector => exact heldElsewhere fun _ _ own => by contradiction

/-- MANUAL mode holds the distribution in a run exactly when no request and no tick of the run
disturbs it. -/
theorem manualExact (actionSmoothing : F) (kan : Option (KANActor F)) (cbf : CBFProjector F)
    (cfg : Config.RingConfig F) (events : List (SharedEvent F)) (s : Shared F) :
    Run (fun s e t => Does Shared.exec s e t ∧ Held s e t)
      (newShared (newAgent actionSmoothing kan cbf) (newManager cfg)) events s ↔
    Run (Guarded Undisturbed (Does Shared.exec))
      (newShared (newAgent actionSmoothing kan cbf) (newManager cfg)) events s := by
  have start : Sound (newShared (newAgent actionSmoothing kan cbf) (newManager cfg)).ring :=
    RingInvariant.newManagerSound cfg
  have kept : ∀ (s : Shared F) e t, Sound s.ring → Does Shared.exec s e t → Sound t.ring :=
    fun _ _ _ sound taken => sharedSound sound taken
  have each : ∀ (s : Shared F) e t, Sound s.ring → Does Shared.exec s e t →
      (Held s e t ↔ Undisturbed s e) := fun _ _ _ sound taken => sharedHeld sound taken
  exact StepRun.eachGuarded kept each start

/-! ### A load spike over one backend -/

def ManualHolds [GoRoots ℚ] : Prop :=
  ∀ actionSmoothing kan cbf cfg events (s : Shared ℚ),
    Run (Does Shared.exec) (newShared (newAgent actionSmoothing kan cbf) (newManager cfg)) events s →
    ∀ e t, s.exec e = some t → Held s e t

theorem stepFirst {a : Agent F} {state rawW w : List F} {ids : List UInt32} (unsmoothed : a.prevW = none)
    (unapplied : a.prevAppliedW = none) (running : (a.projection state ids rawW none).1.isFrozen = false)
    (projected : w = (a.projection state ids rawW none).2.1) (long : ids.length ≤ w.length)
    (rt : Nat → Runtime) (m : Manager F) :
    ∃ next m', a.stepFrom rt m state ids rawW none = .ok ⟨next, m', w, .applied w⟩ := by
  have smoothed : a.smooth (a.modelWeight state) w = w := by simp only [Agent.smooth, unsmoothed]
  subst projected
  have opens := gateFirst (a := { a with
    ood := a.ood.observe state
    cbf := (a.projection state ids rawW none).1
    prevW := some (a.projection state ids rawW none).2.1 }) unapplied
    (a.projection state ids rawW none).2.1 ids.length
  obtain ⟨m', _, settled⟩ := settleOpen opens long rt m (a.projection state ids rawW none).2.1
  refine ⟨_, m', Eq.trans ?_ settled⟩
  simp only [Agent.stepFrom, running, smoothed, Bool.false_eq_true, if_false]

def manualAgent : Agent ℚ := (newAgent 0 none (newCBFProjector 0 0)).setMode .manual [1]

theorem pointOne {w : List ℚ} (point : Point 1 w) : w = [1] := by
  obtain ⟨x, rfl⟩ := List.length_eq_one_iff.mp point.length
  have total := point.simplex.total
  rw [List.sum_singleton] at total
  rw [total]

theorem decideFree {s : Shared F} (free : s.status = .free) {ids : List UInt32}
    (manual : s.agent.mode = .manual ∧ s.agent.manualWeights.length = ids.length) {rt : Nat → Runtime}
    {state rawW : List F} (wait : Wait) {r : Stepped F}
    (raw : s.agent.rawFrom state ids.length (.asked wait) = .ok rawW)
    (stepped : s.agent.stepFrom rt s.ring state ids rawW none = .ok r) (some_ : r.outcome.writes ids ≠ []) :
    s.decide rt state ids wait =
      .ok { s with agent := r.agent, writing := r.outcome.writes ids, status := .applying } := by
  rw [Shared.decide, raw]
  simp only [bind, Except.bind, stepped]
  rw [if_pos ⟨manual, some_, free⟩]
  rfl

theorem manualDecides [GoRoots ℚ] (rt : Nat → Runtime) (state : List ℚ) (wait : Wait) :
    ∃ next, (newShared manualAgent registered).decide rt state [1] wait =
      .ok ⟨next, registered, [(1, 150)], .applying⟩ := by
  have empty : manualAgent.cbf.lastSafeW.length = [(1 : UInt32)].length →
      Simplex.OnSimplex manualAgent.cbf.lastSafeW := fun same => by contradiction
  have counted : [(1 : ℚ)].length = [(1 : UInt32)].length := rfl
  have running := projectionRuns manualAgent (by simp) state counted
  obtain ⟨_, point⟩ := projectionPoint (by simp) empty state counted none
  obtain ⟨next, m, stepped⟩ := stepFirst rfl rfl running (pointOne point).symm le_rfl rt registered
  have count : vnodeCount (1 : ℚ) vnodeBase 1 = 150 := by decide +kernel
  have writes : (Outcome.applied [(1 : ℚ)]).writes [1] = [(1, 150)] := by
    simp only [Outcome.writes, List.map_singleton, List.length_singleton, Nat.cast_one, count]
    rfl
  have decided := decideFree (s := newShared manualAgent registered) rfl ⟨rfl, rfl⟩ wait rfl stepped
    (by simp [writes])
  rw [writes] at decided
  exact ⟨next, decided⟩

/-- The tick takes 23 of the 150 vnodes that the operator's weights gave the backend. -/
theorem tickMovesManual : ¬ ∃ _ : GoRoots ℚ, ManualHolds := by
  rintro ⟨_, holds⟩
  have ids : (collectState (fun _ => .plain) (some seen)).2 = [1] :=
    List.perm_singleton.mp (collectIdsPerm (fun _ => .plain) seen)
  obtain ⟨next, decided⟩ := manualDecides (fun _ => .plain)
    (collectState (fun _ => .plain) (some seen)).1 .answered
  have stepped : (newShared manualAgent registered).exec (.step (fun _ => .plain) (some seen) .answered) =
      some ⟨next, registered, [(1, 150)], .applying⟩ := by
    simp only [Shared.exec, ids]
    rw [decided]
    rfl
  have run : Run (Does Shared.exec)
      (newShared (newAgent 0 none (newCBFProjector 0 0)) (newManager (Config.load {})))
      [.ring .plain (.addBackend { id := 1, health := true }), .setMode .manual [1],
        .step (fun _ => .plain) (some seen) .answered, .write .plain]
      ⟨next, registered.setVnodeCount .plain 1 150, [], .held⟩ :=
    .cons rfl (.cons rfl (.cons stepped (.cons rfl (.nil _))))
  have same := holds _ _ _ _ _ _ run (.ring .plain (.proactiveAdjust StatefulVnodes.authWindow)) _ rfl
    rfl _ _ rfl (.inr ⟨_, rfl⟩) 1
  have moved : ¬ ((((registered.setVnodeCount .plain 1 150).proactiveAdjust .plain
      StatefulVnodes.authWindow).backends.lookup 1).map Backend.vnodeCount =
        ((registered.setVnodeCount .plain 1 150).backends.lookup 1).map Backend.vnodeCount) := by
    decide +kernel
  exact moved same

end OmegaLb.Rl
