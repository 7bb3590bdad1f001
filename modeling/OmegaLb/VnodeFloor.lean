import OmegaLb.GoRounding
import OmegaLb.RingReference

/-! Which runs keep every backend routable. Seven operations write a vnode count; all of them
keep it positive but AddBackend, which takes the count of a registered backend as it comes. -/
namespace OmegaLb.VnodeFloor
open RingManager RingInvariant RingRoute RingWrites RingReference
open StepRun (Run Guarded Along)
open GoMap (Related)
open Config (RingConfig load)

variable {F : Type}

/-- Every backend has a vnode, and every healthy and non-draining one a position. -/
def Routable (m : Manager F) : Prop :=
  ∀ id b, m.backendInfo id = some b →
    1 ≤ b.vnodeCount ∧ (b.health = true → b.draining = false → Owner m id)

def KeepsCount (m : Manager F) (op : Runtime × Op F) : Prop :=
  match op.2 with
  | .addBackend b => b.id ∈ m.backends → 1 ≤ b.vnodeCount
  | _ => True

def Floor (bs : GoMap UInt32 Backend) : Prop := ∀ id b, bs.lookup id = some b → 1 ≤ b.vnodeCount

theorem routableFloor {m : Manager F} (sound : Sound m) : Routable m ↔ Floor m.backends := by
  constructor
  · exact fun routable id b found => (routable id b found).1
  · intro floor id b found
    have positive := floor id b found
    refine ⟨positive, fun healthy staying => (ownerExact sound id).mpr ⟨b, found, ?_, positive⟩⟩
    simp [Backend.eligible, healthy, staying]

theorem relatedFloor {bs cs : GoMap UInt32 Backend} (related : Related Recounted bs cs)
    (floor : Floor bs) : Floor cs := by
  intro id c found
  obtain ⟨b, before, recounted⟩ := GoMap.relatedBefore related found
  exact recounted.routable (floor id b before)

theorem modifyFloor {bs : GoMap UInt32 Backend} (floor : Floor bs) (id : UInt32)
    {f : Backend → Backend} (count : ∀ b, (f b).vnodeCount = b.vnodeCount) :
    Floor (GoMap.modify bs id f) := by
  intro k c found
  rw [GoMap.lookupModify] at found
  split at found
  · obtain ⟨b, before, written⟩ := Option.map_eq_some_iff.mp found
    rw [← written, count]
    exact floor id b before
  · exact floor k c found

theorem setFieldFloor (rt : Runtime) {m : Manager F} (floor : Floor m.backends) (id : UInt32)
    {write : Backend → Backend} (count : ∀ b, (write b).vnodeCount = b.vnodeCount) :
    Floor (m.setField rt id write).backends := by
  unfold Manager.setField
  split
  · exact modifyFloor floor id count
  · exact floor

theorem removeBackendFloor (rt : Runtime) {m : Manager F} (floor : Floor m.backends) (id : UInt32) :
    Floor (m.removeBackend rt id).backends := by
  intro k b found
  by_cases same : k = id
  · subst same
    simp [Manager.removeBackend] at found
  · exact floor k b ((AList.lookup_erase_ne same).symm.trans found)

theorem setDrainingAllFloor (rt : Runtime) {m : Manager F} (floor : Floor m.backends) (draining : Bool) :
    Floor (m.setDrainingAll rt draining).1.backends := by
  intro k c found
  obtain ⟨b, before, written⟩ := Option.map_eq_some_iff.mp ((GoMap.lookupMapValues _ _ k).symm.trans found)
  rw [← written]
  exact floor k b before

theorem routeFloor [GoRounding F] (rt : Runtime) {m : Manager F} (sound : Sound m) (floor : Floor m.backends)
    {key : UInt32} {out : Manager F × Except RouteError UInt32} (routed : m.route rt key = .ok out) :
    Floor out.1.backends := by
  rcases routeAnswers rt sound routed with ⟨_, same⟩ | ⟨_, b, _, _, _, _, _, related⟩
  · rw [same]
    exact floor
  · exact relatedFloor related (modifyFloor floor b.id fun _ => rfl)

theorem addBackendFloor (rt : Runtime) {m : Manager F} (positive : 1 ≤ m.cfg.vnodesPerServer)
    (floor : Floor m.backends) (b : Backend) :
    Floor (m.addBackend rt b).backends ↔ (b.id ∈ m.backends → 1 ≤ b.vnodeCount) := by
  constructor
  · intro after known
    have found := after b.id _ (addBackendLookups rt m b b.id ▸ if_pos rfl)
    rwa [if_pos known] at found
  · intro counted id c found
    rw [addBackendLookups] at found
    split at found
    · cases found
      dsimp only
      split
      · exact counted ‹_›
      · exact positive
    · exact floor id c found

/-! ### The proactive reduction -/

variable [GoRounding F]

theorem vnodeReductionBelow {n : Int} (several : 1 < n) : vnodeReduction F n ≤ n - 1 := by
  have wide : (2 : ℚ) ≤ n := by exact_mod_cast several
  have countNonneg := GoRounding.roundedNonneg F (q := (n : ℚ)) (by linarith)
  have countBelow := GoRounding.roundedBelow F (q := (n : ℚ)) (by linarith)
  have shareNonneg := GoRounding.roundedNonneg F (q := 0.15) (by norm_num)
  have shareBelow := GoRounding.roundedBelow F (q := 0.15) (by norm_num)
  have productNonneg := mul_nonneg countNonneg shareNonneg
  have productBelow := GoRounding.roundedBelow F productNonneg
  have cut : GoRounding.value (GoFloat.ofInt n * (GoFloat.lit 0.15 : F)) ≤ ((n - 1 : Int) : ℚ) := by
    rw [GoRounding.valueMul, GoRounding.valueOfInt, GoRounding.valueLit]
    push_cast
    nlinarith [mul_le_mul countBelow shareBelow shareNonneg (by linarith)]
  unfold vnodeReduction
  dsimp only
  split
  · omega
  · rw [GoRounding.ceilValue]
    exact Int.ceil_le.mpr cut

theorem preMigrateRecounts (samples : List F) (b : Backend) : Recounted b (preMigrate samples b) := by
  unfold preMigrate
  split
  · exact recountedRefl b
  · split
    · rename_i overloaded
      have several : 1 < b.vnodeCount := by simpa using (Bool.and_eq_true_iff.mp overloaded).2
      have cut := vnodeReductionBelow (F := F) several
      exact ⟨rfl, fun _ => by dsimp only; omega⟩
    · exact recountedRefl b

theorem proactiveAdjustWrites (rt : Runtime) (m : Manager F) (loadWindow : GoMap UInt32 (List F)) :
    Related Recounted m.backends (m.proactiveAdjust rt loadWindow).backends := by
  refine List.foldlRecOn (motive := fun bs => Related Recounted m.backends bs) _ _
    (GoMap.relatedRefl recountedRefl m.backends) fun bs held e _ => ?_
  have next := GoMap.relatedModify recountedRefl bs (k := e.1) fun b _ => preMigrateRecounts e.2 b
  exact GoMap.relatedTrans recountedTrans held next

/-! ### Steps and runs -/

structure Known (m : Manager F) : Prop where
  sound : Sound m
  positive : 1 ≤ m.cfg.vnodesPerServer

theorem stepKnown (m : Manager F) (op : Runtime × Op F) (next : Manager F) (known : Known m)
    (taken : Step m op next) : Known next := by
  refine ⟨applySound op.1 known.sound taken, ?_⟩
  rw [applyCfg op.1 taken]
  exact known.positive

theorem stepFloor {m : Manager F} (known : Known m) {rt : Runtime} {op : Op F} {next : Manager F}
    (floor : Floor m.backends) (taken : m.apply rt op = .ok next) :
    Floor next.backends ↔ KeepsCount m (rt, op) := by
  cases op with
  | addBackend b =>
    cases taken
    exact addBackendFloor rt known.positive floor b
  | removeBackend id =>
    cases taken
    exact iff_of_true (removeBackendFloor rt floor id) trivial
  | setHealth id healthy =>
    cases taken
    exact iff_of_true (setFieldFloor rt floor id fun _ => rfl) trivial
  | setDraining id draining =>
    cases taken
    exact iff_of_true (setFieldFloor rt floor id fun _ => rfl) trivial
  | setDrainingAll draining =>
    cases taken
    exact iff_of_true (setDrainingAllFloor rt floor draining) trivial
  | setVnodeCount id count =>
    cases taken
    exact iff_of_true (relatedFloor (setVnodeCountWrites rt m id count) floor) trivial
  | releaseConn id =>
    cases taken
    exact iff_of_true (modifyFloor floor id fun b => by rw [releaseWrites]) trivial
  | route key =>
    simp only [Manager.apply, bind, Except.bind] at taken
    split at taken <;> try contradiction
    rename_i out routed
    cases taken
    exact iff_of_true (routeFloor rt known.sound floor routed) trivial
  | proactiveAdjust loadWindow =>
    cases taken
    exact iff_of_true (relatedFloor (proactiveAdjustWrites rt m loadWindow) floor) trivial
  | beginSlowStart id =>
    cases taken
    refine iff_of_true ?_ trivial
    unfold Manager.beginSlowStart
    split <;> exact floor
  | cancelSlowStart id =>
    cases taken
    exact iff_of_true floor trivial
  | slowStartTick errorRate =>
    cases taken
    exact iff_of_true (relatedFloor (slowStartTickWrites rt m errorRate) floor) trivial

theorem newManagerKnown {cfg : RingConfig F} (positive : 1 ≤ cfg.vnodesPerServer) :
    Known (newManager cfg) := by
  refine ⟨newManagerSound cfg, ?_⟩
  unfold newManager
  rw [if_neg (by omega)]
  dsimp only
  split <;> exact positive

/-- The runs in which every state reached is routable are those that never register a
registered backend again with a count below one. -/
theorem routableRuns {cfg : RingConfig F} (positive : 1 ≤ cfg.vnodesPerServer)
    (ops : List (Runtime × Op F)) (m : Manager F) :
    Run (Along Routable Step) (newManager cfg) ops m ↔
      Run (Guarded KeepsCount Step) (newManager cfg) ops m := by
  have known := newManagerKnown positive
  have exactly_ : ∀ (s : Manager F) op t, Known s → Routable s → Step s op t →
      (Routable t ↔ KeepsCount s op) := by
    intro s op t held routable taken
    have after := stepKnown s op t held taken
    exact (routableFloor after.sound).trans
      (stepFloor held ((routableFloor held.sound).mp routable) taken)
  refine StepRun.alongGuarded stepKnown exactly_ known ((routableFloor known.sound).mpr fun id b found => ?_)
  simp [newManager] at found

theorem reregisteredKeepsCount : ∃ m : Manager ℚ, Run (Along Routable Step) (newManager (load {}))
    [(.plain, .addBackend { id := 1, health := true }),
      (.plain, .addBackend { id := 1, health := true, vnodeCount := 2 })] m := by
  refine ⟨_, (routableRuns (by decide) _ _).mpr (.cons ⟨?_, rfl⟩ (.cons ⟨?_, rfl⟩ (.nil _)))⟩
  · intro known
    simp [newManager] at known
  · intro _
    decide

theorem reregisteredStarves : ∃ m : Manager ℚ, Run Step (newManager (load {}))
    [(.plain, .addBackend { id := 1, health := true }),
      (.plain, .addBackend { id := 1, health := true })] m ∧ ¬ Routable m := by
  refine ⟨_, .cons rfl (.cons rfl (.nil _)), fun routable => ?_⟩
  have again := addBackendLookups .plain
    ((newManager (load {}) : Manager ℚ).addBackend .plain { id := 1, health := true })
    { id := 1, health := true } 1
  have known : (1 : UInt32) ∈
      ((newManager (load {}) : Manager ℚ).addBackend .plain { id := 1, health := true }).backends := by
    apply AList.lookup_isSome.mp
    rw [addBackendLookups, if_pos rfl]
    rfl
  rw [if_pos rfl, if_pos known] at again
  exact absurd (routable 1 _ again).1 (by decide)

end OmegaLb.VnodeFloor
