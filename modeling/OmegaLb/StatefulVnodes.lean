import OmegaLb.RingReference
import OmegaLb.RlAgent

/-! The three control loops that move vnodes by themselves, and whether they leave the backends
alone that are registered as stateful. -/
namespace OmegaLb.StatefulVnodes
open RingManager RingInvariant RingWrites RingReference
open GoMap (Related)
open StepRun (Run Guarded)
open Config (RingConfig load)
open Rl (applyFrom applyWeightsToRing vnodeCount vnodeBase)

variable {F : Type}

/-- `weigh` is one pass through the loop of applyWeightsToRing, which takes the lock anew for
every backend. -/
inductive Adjuster (F : Type) where
  | route (key : UInt32)
  | proactiveAdjust (loadWindow : GoMap UInt32 (List F))
  | weigh (id : UInt32) (weight : F) (nBackends : Int)

def Migrates [GoFloat F] (samples : List F) (b : Backend) : Prop :=
  b.health = true ∧ b.draining = false ∧
    GoFloat.gt (predictedLoad samples / b.cap) (GoFloat.lit 0.75) = true ∧ 1 < b.vnodeCount

section Model
variable [GoMath F]

def adjustBy (rt : Runtime) (m : Manager F) : Adjuster F → Go (Manager F)
  | .route key => do return (← m.route rt key).1
  | .proactiveAdjust loadWindow => .ok (m.proactiveAdjust rt loadWindow)
  | .weigh id weight nBackends => .ok (m.setVnodeCount rt id (vnodeCount weight vnodeBase nBackends))

def AdjustStep (m : Manager F) (e : Runtime × Adjuster F) (next : Manager F) : Prop :=
  adjustBy e.1 m e.2 = .ok next

theorem applyFromRun (rt : Nat → Runtime) (weights : List F) (nBackends : Int) {m next : Manager F}
    {i : Nat} {ids : List UInt32} (applied : applyFrom rt weights nBackends m i ids = .ok next) :
    ∃ es, Run AdjustStep m es next := by
  induction ids generalizing m i with
  | nil =>
    cases applied
    exact ⟨[], .nil _⟩
  | cons id rest ih =>
    simp only [applyFrom, bind, Except.bind] at applied
    split at applied <;> try contradiction
    rename_i weight _
    obtain ⟨es, later⟩ := ih applied
    exact ⟨(rt i, .weigh id weight nBackends) :: es, .cons rfl later⟩

theorem applyWeightsRun (rt : Nat → Runtime) {m next : Manager F} {ids : List UInt32}
    {weights : List F} (applied : applyWeightsToRing rt m ids weights = .ok next) :
    ∃ es, Run AdjustStep m es next := applyFromRun rt weights ids.length applied

def KeepsStateful (m next : Manager F) : Prop :=
  ∀ id b, m.backendInfo id = some b → b.stateful = true →
    ∃ c, next.backendInfo id = some c ∧ c.stateful = true ∧ c.vnodeCount = b.vnodeCount

def SparesStateful (m : Manager F) (e : Runtime × Adjuster F) : Prop :=
  match e.2 with
  | .route _ => True
  | .proactiveAdjust loadWindow => ∀ id samples b, loadWindow.lookup id = some samples →
      m.backendInfo id = some b → b.stateful = true → ¬ Migrates samples b
  | .weigh id weight nBackends => ∀ b, m.backendInfo id = some b → b.stateful = true →
      vnodeCount weight vnodeBase nBackends = b.vnodeCount

end Model

/-! ### Frames -/

def Spared (b c : Backend) : Prop :=
  b.stateful = true → c.stateful = true ∧ c.vnodeCount = b.vnodeCount

theorem sparedRefl (b : Backend) : Spared b b := fun stateful => ⟨stateful, rfl⟩

theorem sparedTrans (b c d : Backend) (first : Spared b c) (second : Spared c d) : Spared b d := by
  intro stateful
  obtain ⟨still, count⟩ := first stateful
  obtain ⟨last, same⟩ := second still
  exact ⟨last, same.trans count⟩

theorem relatedKeeps {m next : Manager F} (related : Related Spared m.backends next.backends) :
    KeepsStateful m next := by
  intro id b found stateful
  obtain ⟨c, after, spared⟩ := GoMap.relatedAfter related found
  exact ⟨c, after, spared stateful⟩

theorem pickStateless {m : Manager F} (sound : Sound m) (rt : Runtime) {found : Backend}
    (inside : found ∈ (rt.order (GoMap.values m.backends)).filter Backend.adjustable) {b : Backend}
    (registered : m.backends.lookup found.id = some b) : b.stateful = false := by
  obtain ⟨listed, adjustable⟩ := List.mem_filter.mp inside
  obtain ⟨k, own⟩ := GoMap.memValues.mp ((rt.orderPerm _).mem_iff.mp listed)
  rw [sound.keyed k found own, own] at registered
  cases registered
  simp only [Backend.adjustable, Bool.and_eq_true, Bool.not_eq_true'] at adjustable
  exact adjustable.1.2

theorem statelessSpared {b : Backend} (stateless : b.stateful = false) (n : Int) :
    Spared b (b.addVnodes n) := fun stateful => by rw [stateless] at stateful; contradiction

section Steps
variable [GoFloat F]

theorem adjustSpares (rt : Runtime) {m : Manager F} (sound : Sound m) :
    Related Spared m.backends (m.adjust rt).backends := by
  have unchanged := GoMap.relatedRefl sparedRefl m.backends
  unfold Manager.adjust
  dsimp only
  split
  · rename_i hottest coolest foundHot foundCool
    rw [hotterKeeps] at foundHot
    rw [coolerKeeps] at foundCool
    have hot := (FirstLeast.keptLeast _ none foundHot).1.resolve_right (by simp)
    have cool := (FirstLeast.keptLeast _ none foundCool).1.resolve_right (by simp)
    split
    · exact unchanged
    · rename_i differ
      split
      · split
        · refine GoMap.relatedTrans sparedTrans (GoMap.relatedModify sparedRefl m.backends ?_)
            (GoMap.relatedModify sparedRefl _ ?_)
          · exact fun b found => statelessSpared (pickStateless sound rt hot found) (-1)
          · intro b found
            rw [GoMap.lookupModify, if_neg (Ne.symm differ)] at found
            exact statelessSpared (pickStateless sound rt cool found) 1
        · exact unchanged
      · exact unchanged
  · exact unchanged

theorem routeSpares (rt : Runtime) {m : Manager F} (sound : Sound m) {key : UInt32}
    {out : Manager F × Except RouteError UInt32} (routed : m.route rt key = .ok out) :
    Related Spared m.backends out.1.backends := by
  have start : Sound m ∧ Related Spared m.backends m.backends :=
    ⟨sound, GoMap.relatedRefl sparedRefl m.backends⟩
  refine (routeKeeps (P := fun n => Sound n ∧ Related Spared m.backends n.backends) rt start
    (fun id => ⟨countedSound sound id, ?_⟩) (fun n held => ?_) routed).2
  · exact GoMap.relatedModify sparedRefl m.backends fun b _ stateful => ⟨stateful, rfl⟩
  · exact ⟨adjustSound rt held.1, GoMap.relatedTrans sparedTrans held.2 (adjustSpares rt held.1)⟩

/-! ### ProactiveAdjust backend by backend -/

theorem migrateStateful (samples : List F) (b : Backend) :
    (preMigrate samples b).stateful = b.stateful := by
  unfold preMigrate
  split
  · rfl
  · split <;> rfl

theorem migrateCount (samples : List F) (b : Backend) :
    (preMigrate samples b).vnodeCount = b.vnodeCount ↔ ¬ Migrates samples b := by
  unfold preMigrate Migrates
  split
  · rename_i excluded
    rw [Bool.or_eq_true, Bool.not_eq_true'] at excluded
    refine iff_of_true rfl fun ⟨healthy, staying, _⟩ => ?_
    rcases excluded with dead | leaving
    · rw [healthy] at dead
      contradiction
    · rw [staying] at leaving
      contradiction
  · rename_i serving
    rw [Bool.or_eq_true, Bool.not_eq_true', not_or, Bool.not_eq_false, Bool.not_eq_true] at serving
    split
    · rename_i hot
      rw [Bool.and_eq_true, decide_eq_true_eq] at hot
      refine iff_of_false (fun same => ?_) fun none_ => none_ ⟨serving.1, serving.2, hot⟩
      dsimp only [vnodeReduction] at same
      split at same <;> omega
    · rename_i cool
      rw [Bool.and_eq_true, decide_eq_true_eq] at cool
      exact iff_of_true rfl fun ⟨_, _, hot⟩ => cool hot

theorem migrateLookup (window : List ((_ : UInt32) × List F)) (distinct : window.NodupKeys)
    (bs : GoMap UInt32 Backend) (id : UInt32) :
    (window.foldl (fun bs e => GoMap.modify bs e.1 (preMigrate e.2)) bs).lookup id =
      (bs.lookup id).map fun b => ((window.dlookup id).map fun samples => preMigrate samples b).getD b := by
  induction window generalizing bs with
  | nil => simp
  | cons e rest ih =>
    obtain ⟨fresh, distinct⟩ := List.nodupKeys_cons.mp distinct
    rw [List.foldl_cons, ih distinct, GoMap.lookupModify]
    by_cases same : id = e.1
    · subst same
      rw [if_pos rfl, List.dlookup_eq_none.mpr fresh, List.dlookup_cons_eq, Option.map_map]
      rfl
    · rw [if_neg same, List.dlookup_cons_ne _ _ same]

theorem proactiveAdjustExact (rt : Runtime) (m : Manager F) (loadWindow : GoMap UInt32 (List F)) :
    KeepsStateful m (m.proactiveAdjust rt loadWindow) ↔
      ∀ id samples b, loadWindow.lookup id = some samples → m.backendInfo id = some b →
        b.stateful = true → ¬ Migrates samples b := by
  have lookups := migrateLookup loadWindow.entries loadWindow.nodupKeys m.backends
  have after : ∀ id, (m.proactiveAdjust rt loadWindow).backendInfo id = (m.backendInfo id).map fun b =>
      ((loadWindow.lookup id).map fun samples => preMigrate samples b).getD b := lookups
  constructor
  · intro keeps id samples b listed found stateful
    obtain ⟨c, written, _, count⟩ := keeps id b found stateful
    rw [after, found, listed] at written
    cases written
    exact (migrateCount samples b).mp count
  · intro spares id b found stateful
    cases listed : loadWindow.lookup id with
    | none => exact ⟨b, by rw [after, found, listed]; rfl, stateful, rfl⟩
    | some samples =>
      refine ⟨preMigrate samples b, by rw [after, found, listed]; rfl, ?_, ?_⟩
      · rw [migrateStateful, stateful]
      · exact (migrateCount samples b).mpr (spares id samples b listed found stateful)

end Steps

/-! ### Steps and runs -/

variable [GoMath F]

theorem vnodeCountPositive (weight : F) (base nBackends : Int) : 1 ≤ vnodeCount weight base nBackends := by
  unfold vnodeCount
  dsimp only
  split <;> omega

omit [GoMath F] in
theorem weighExact (rt : Runtime) (m : Manager F) (id : UInt32) {count : Int} (positive : 1 ≤ count) :
    KeepsStateful m (m.setVnodeCount rt id count) ↔
      ∀ b, m.backendInfo id = some b → b.stateful = true → count = b.vnodeCount := by
  have written : (if count < 1 then 1 else count) = count := if_neg (by omega)
  have after : ∀ k, (m.setVnodeCount rt id count).backendInfo k =
      if k = id then (m.backendInfo id).map fun b => { b with vnodeCount := count }
      else m.backendInfo k := by
    intro k
    refine (setFieldLookup rt m id k _).trans ?_
    rw [written]
    rfl
  constructor
  · intro keeps b found stateful
    obtain ⟨c, held, _, same⟩ := keeps id b found stateful
    rw [after, if_pos rfl, found] at held
    cases held
    exact same
  · intro spares k b found stateful
    by_cases same : k = id
    · subst same
      refine ⟨{ b with vnodeCount := count }, ?_, stateful, spares b found stateful⟩
      rw [after, if_pos rfl, found]
      rfl
    · exact ⟨b, by rw [after, if_neg same, found], stateful, rfl⟩

theorem routeStep {m next : Manager F} {rt : Runtime} {key : UInt32}
    (taken : AdjustStep m (rt, .route key) next) :
    ∃ out, m.route rt key = .ok out ∧ next = out.1 := by
  simp only [AdjustStep, adjustBy, bind, Except.bind] at taken
  split at taken <;> try contradiction
  cases taken
  exact ⟨_, ‹_›, rfl⟩

theorem adjustByExact {m next : Manager F} {e : Runtime × Adjuster F} (sound : Sound m)
    (taken : AdjustStep m e next) : KeepsStateful m next ↔ SparesStateful m e := by
  obtain ⟨rt, e⟩ := e
  cases e with
  | route key =>
    obtain ⟨out, routed, rfl⟩ := routeStep taken
    exact iff_of_true (relatedKeeps (routeSpares rt sound routed)) trivial
  | proactiveAdjust loadWindow =>
    cases taken
    exact proactiveAdjustExact rt m loadWindow
  | weigh id weight nBackends =>
    cases taken
    exact weighExact rt m id (vnodeCountPositive weight vnodeBase nBackends)

theorem adjustBySound {m next : Manager F} {e : Runtime × Adjuster F} (sound : Sound m)
    (taken : AdjustStep m e next) : Sound next := by
  obtain ⟨rt, e⟩ := e
  cases e with
  | route key =>
    obtain ⟨out, routed, rfl⟩ := routeStep taken
    exact routeSound rt sound routed
  | proactiveAdjust loadWindow =>
    cases taken
    exact proactiveAdjustSound rt sound loadWindow
  | weigh id weight nBackends =>
    cases taken
    exact setVnodeCountSound rt sound id _

theorem statefulExact {cfg : RingConfig F} {ops m} (reached : Run Step (newManager cfg) ops m)
    {es next} : Run (fun s e t => AdjustStep s e t ∧ KeepsStateful s t) m es next ↔
      Run (Guarded SparesStateful AdjustStep) m es next := by
  have kept : ∀ (s : Manager F) e t, Sound s → AdjustStep s e t → Sound t :=
    fun _ _ _ sound taken => adjustBySound sound taken
  have each : ∀ (s : Manager F) e t, Sound s → AdjustStep s e t →
      (KeepsStateful s t ↔ SparesStateful s e) := fun _ _ _ sound taken => adjustByExact sound taken
  exact StepRun.eachGuarded kept each (runSound reached)

/-! ### An authentication backend under load -/

def authBackend : Manager ℚ :=
  (newManager (load {})).addBackend .plain { id := 1, health := true, stateful := true }

def authWindow : GoMap UInt32 (List ℚ) := AList.singleton 1 [900]

theorem authBackendRun : ∃ ops, Run Step (newManager (load {})) ops authBackend :=
  ⟨[(.plain, .addBackend { id := 1, health := true, stateful := true })], .cons rfl (.nil _)⟩

theorem authBackendWeighed : Run (fun s e t => AdjustStep s e t ∧ KeepsStateful s t) authBackend
    [(.plain, .weigh 1 1 1)] (authBackend.setVnodeCount .plain 1 150) := by
  have taken : AdjustStep authBackend (.plain, .weigh 1 1 1) (authBackend.setVnodeCount .plain 1 150) := by
    have count : vnodeCount (1 : ℚ) vnodeBase 1 = 150 := by decide +kernel
    simp only [AdjustStep, adjustBy, count]
  have same : SparesStateful authBackend (.plain, .weigh 1 1 1) := by
    intro b found _
    have stored : (authBackend.backendInfo 1).map Backend.vnodeCount = some 150 := by decide +kernel
    rw [found] at stored
    rw [Option.some.inj stored]
    decide +kernel
  obtain ⟨ops, reached⟩ := authBackendRun
  exact (statefulExact reached).mpr (.cons ⟨same, taken⟩ (.nil _))

/-- A load of 900 against the default capacity takes 23 of its 150 vnodes; half of the weight
of one backend takes 75. -/
theorem authBackendLosesVnodes : (∃ ops, Run Step (newManager (load {})) ops authBackend) ∧
    ∀ e ∈ [.proactiveAdjust authWindow, .weigh 1 (1 / 2) 1], ∃ next,
      AdjustStep authBackend (.plain, e) next ∧ ¬ KeepsStateful authBackend next := by
  have drops : ∀ e next, AdjustStep authBackend (.plain, e) next →
      (next.backendInfo 1).map Backend.vnodeCount ≠ some 150 →
      ∃ next, AdjustStep authBackend (.plain, e) next ∧ ¬ KeepsStateful authBackend next := by
    intro e next taken changed
    refine ⟨next, taken, fun keeps => changed ?_⟩
    have held := addBackendLookup .plain (newManager (load {}) : Manager ℚ)
      { id := 1, health := true, stateful := true } (by decide)
    obtain ⟨c, after, _, same⟩ := keeps 1 _ held rfl
    have size : (newManager (load {}) : Manager ℚ).cfg.vnodesPerServer = 150 := by decide +kernel
    rw [after, Option.map_some, same, size]
  refine ⟨authBackendRun, fun e listed => ?_⟩
  rcases List.mem_pair.mp listed with same | same
  · subst same
    exact drops _ _ rfl (by decide +kernel)
  · subst same
    exact drops _ _ rfl (by decide +kernel)

end OmegaLb.StatefulVnodes
