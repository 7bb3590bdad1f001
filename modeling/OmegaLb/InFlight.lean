import OmegaLb.Affinity
import OmegaLb.Coordinator

/-! In-flight accounting: the ActiveReqs of every backend against a ledger of the requests
returned for it and released, over all runs of routing, registration and snapshots. -/
namespace OmegaLb.InFlight
open GoText (Bytes ascii)
open RingManager RingInvariant RingReference RingWrites Affinity Consensus
open RingSnapshot (RingStateSnapshot unmarshal)
open StepRun (Run Guarded Along Does)
open Config (RingConfig load)

variable {F : Type}

/-- A node with what its callers saw: the requests returned for a backend and those released. -/
structure Traffic (F : Type) where
  sticky : StickyManager F
  lastVersion : Int64
  returned : UInt32 → Int
  released : UInt32 → Int

inductive Event where
  | route (key : UInt32)
  | routeStateful (now : Int) (sessionKey : Bytes) (fallbackHash : UInt32)
  | releaseConn (id : UInt32)
  | addBackend (b : Backend)
  | setHealth (id : UInt32) (healthy : Bool)
  | setDraining (id : UInt32) (draining : Bool)
  | setVnodeCount (id : UInt32) (count : Int)
  | applySnapshot (data : Bytes)
  | register (now : Int) (sessionKey : Bytes) (backendID : UInt32)
  | expire (sessionKey : Bytes)
  | gc (now : Int)

def Traffic.withManager (s : Traffic F) (m : Manager F) : Traffic F :=
  { s with sticky := { s.sticky with manager := m } }

def Traffic.answered (s : Traffic F) (answer : Except RouteError UInt32) : Traffic F :=
  match answer with
  | .ok id => { s with returned := Function.update s.returned id (s.returned id + 1) }
  | .error _ => s

def loadOf (m : Manager F) (id : UInt32) : Option Int := (m.backendInfo id).map Backend.activeReqs

/-- The requests a backend holds are those returned for it and not yet released. -/
def Accounted (s : Traffic F) : Prop :=
  ∀ id n, loadOf s.sticky.manager id = some n → n = s.returned id - s.released id ∧ 0 ≤ n

section Step
variable [GoFloat F]

/-- A request is released at most once, so a release needs one that is outstanding. -/
def step (s : Traffic F) (e : (Nat → Runtime) × Event) : Option (Traffic F) :=
  let m := s.sticky.manager
  let rt := e.1 0
  match e.2 with
  | .route key =>
    match m.route rt key with
    | .ok (next, answer) => some ((s.withManager next).answered answer)
    | .error _ => none
  | .routeStateful now sessionKey fallbackHash =>
    match s.sticky.routeStateful rt now sessionKey fallbackHash with
    | .ok (next, answer) => some (Traffic.answered { s with sticky := next } (answer.map Prod.fst))
    | .error _ => none
  | .releaseConn id =>
    if s.released id < s.returned id then
      some { s.withManager (m.releaseConn id) with
        released := Function.update s.released id (s.released id + 1) }
    else none
  | .addBackend b => some (s.withManager (m.addBackend rt b))
  | .setHealth id healthy => some (s.withManager (m.setHealth rt id healthy))
  | .setDraining id draining => some (s.withManager (m.setDraining rt id draining).1)
  | .setVnodeCount id count => some (s.withManager (m.setVnodeCount rt id count))
  | .applySnapshot data =>
    let next := (Coordinator.applySnapshot e.1 ⟨m, s.lastVersion⟩ data).1
    some { s.withManager next.ring with lastVersion := next.lastVersion }
  | .register now sessionKey backendID =>
    some { s with sticky.affinity := s.sticky.affinity.register now sessionKey backendID }
  | .expire sessionKey => some { s with sticky.affinity := s.sticky.affinity.expire sessionKey }
  | .gc now => some { s with sticky.affinity := (s.sticky.affinity.gc now).1 }

end Step

def newTraffic [GoFloat F] (cfg : RingConfig F) : Traffic F where
  sticky := newStickyManager cfg
  lastVersion := 0
  returned := fun _ => 0
  released := fun _ => 0

/-- One more request on the backend that Route settles on still fits its int64. -/
def HasRoom [GoFloat F] (rt : Runtime) (m : Manager F) (key : UInt32) : Prop :=
  m.ring.length ≠ 0 → ∀ b, routeTarget rt m key = some b → FitsInt (b.activeReqs + 1)

/-- No affinity hit, no re-registration that changes the count, no accepted snapshot that
lists a backend with requests in flight, and no count past the last int64. -/
def KeepsCount [GoFloat F] (s : Traffic F) (e : (Nat → Runtime) × Event) : Prop :=
  match e.2 with
  | .route key => HasRoom (e.1 0) s.sticky.manager key
  | .routeStateful now sessionKey fallbackHash =>
    s.sticky.honoured now sessionKey = none ∧ HasRoom (e.1 0) s.sticky.manager fallbackHash
  | .addBackend b => b.activeReqs = (loadOf s.sticky.manager b.id).getD 0
  | .applySnapshot data => ∀ snap, unmarshal data = some snap → s.lastVersion < snap.version →
      ∀ bs ∈ snap.backends, (loadOf s.sticky.manager bs.id).getD 0 = 0
  | _ => True

/-! ### What each operation does to the loads -/

theorem setFieldLoad (rt : Runtime) (m : Manager F) (id : UInt32) (write : Backend → Backend)
    (quiet : ∀ b, (write b).activeReqs = b.activeReqs) (k : UInt32) :
    loadOf (m.setField rt id write) k = loadOf m k := by
  have found : (m.setField rt id write).backendInfo k =
      if k = id then (m.backendInfo id).map write else m.backendInfo k := setFieldLookup rt m id k write
  unfold loadOf
  rw [found]
  split
  · subst k
    rw [Option.map_map]
    exact congrFun (congrArg Option.map (funext quiet)) _
  · rfl

theorem addBackendLoad (rt : Runtime) (m : Manager F) (b : Backend) (k : UInt32) :
    loadOf (m.addBackend rt b) k = if k = b.id then some b.activeReqs else loadOf m k := by
  unfold loadOf Manager.backendInfo
  rw [addBackendLookups]
  split <;> rfl

theorem releaseConnLoad (m : Manager F) (id k : UInt32) :
    loadOf (m.releaseConn id) k =
      (loadOf m k).map fun n => if k = id then (if n > 0 then n - 1 else n) else n := by
  unfold loadOf Manager.backendInfo Manager.releaseConn
  rw [GoMap.lookupModify]
  split
  · subst k
    rw [Option.map_map, Option.map_map]
    congr 1
    funext b
    simp only [Function.comp_apply, Backend.release]
    split <;> rfl
  · simp [Function.comp_def]

theorem recountedLoadOf {m next : Manager F} {id : UInt32}
    (related : GoMap.Related Recounted (counted m id).backends next.backends) (k : UInt32) :
    loadOf next k = (loadOf m k).map fun n => if k = id then wrapInt (n + 1) else n := by
  unfold loadOf
  rw [Option.map_map]
  exact recountedLoads related k

theorem applyBackendsLoad (rt : Nat → Runtime) (m : Manager F)
    (bs : List RingSnapshot.BackendSnapshot) (k : UInt32) :
    loadOf (applyBackends rt m bs) k = if (listing bs k).isSome then some 0 else loadOf m k := by
  unfold loadOf Manager.backendInfo
  rw [applyBackendsLookup]
  cases listing bs k <;> rfl

/-! ### Steps -/

structure Known (s : Traffic F) : Prop where
  sound : Sound s.sticky.manager
  covered : ∀ id, loadOf s.sticky.manager id = none → s.returned id = s.released id

theorem ledgerKept {s t : Traffic F} (known : Known s) (sound : Sound t.sticky.manager)
    (registered : ∀ k, loadOf t.sticky.manager k = none → loadOf s.sticky.manager k = none)
    (returned : t.returned = s.returned) (released : t.released = s.released) : Known t := by
  refine ⟨sound, fun id missing => ?_⟩
  rw [returned, released]
  exact known.covered id (registered id missing)

theorem quietKept {s t : Traffic F} (known : Known s) (sound : Sound t.sticky.manager)
    (loads : ∀ k, loadOf t.sticky.manager k = loadOf s.sticky.manager k)
    (returned : t.returned = s.returned) (released : t.released = s.released) :
    Known t ∧ (Accounted s → Accounted t) := by
  refine ⟨ledgerKept known sound (fun k => (loads k ▸ ·)) returned released, fun accounted id n held => ?_⟩
  rw [returned, released]
  exact accounted id n (loads id ▸ held)

theorem hitBreaks {s : Traffic F} (known : Known s) {id : UInt32} {n : Int}
    (held : loadOf s.sticky.manager id = some n) :
    Known (s.answered (.ok id)) ∧ (Accounted s → ¬ Accounted (s.answered (.ok id))) := by
  refine ⟨⟨known.sound, fun k missing => ?_⟩, fun accounted after => ?_⟩
  · have other : k ≠ id := by
      intro same
      rw [same] at missing
      exact absurd (held.symm.trans missing) (by simp)
    show Function.update s.returned id _ k = s.released k
    rw [Function.update_of_ne other]
    exact known.covered k missing
  · have before := (accounted id n held).1
    have wrong : n = Function.update s.returned id (s.returned id + 1) id - s.released id :=
      (after id n held).1
    rw [Function.update_self] at wrong
    omega

theorem releaseKept {s : Traffic F} (known : Known s) {id : UInt32}
    (outstanding : s.released id < s.returned id) {t : Traffic F}
    (manager : t.sticky.manager = s.sticky.manager.releaseConn id) (returned : t.returned = s.returned)
    (released : t.released = Function.update s.released id (s.released id + 1)) :
    Known t ∧ (Accounted s → Accounted t) := by
  have sound : Sound t.sticky.manager := manager ▸ releaseConnSound known.sound id
  refine ⟨⟨sound, fun k missing => ?_⟩, fun accounted k n held => ?_⟩
  · rw [manager, releaseConnLoad, Option.map_eq_none_iff] at missing
    have balance := known.covered k missing
    have other : k ≠ id := by
      intro same
      subst same
      omega
    rw [returned, released, Function.update_of_ne other, balance]
  · rw [manager, releaseConnLoad] at held
    obtain ⟨before, load, left⟩ := Option.map_eq_some_iff.mp held
    obtain ⟨balance, nonneg⟩ := accounted k before load
    rw [returned, released]
    by_cases same : k = id
    · subst same
      rw [Function.update_self]
      rw [if_pos rfl, if_pos (by omega)] at left
      omega
    · rw [Function.update_of_ne same]
      rw [if_neg same] at left
      omega

/-- A load written over the one a backend has, if it has one, fits the ledger exactly when it
is the same, and zero for a new backend. -/
theorem writtenLoad {s : Traffic F} (known : Known s) (accounted : Accounted s) (id : UInt32) (n : Int) :
    (n = s.returned id - s.released id ∧ 0 ≤ n) ↔ n = (loadOf s.sticky.manager id).getD 0 := by
  cases load : loadOf s.sticky.manager id with
  | none =>
    have balance := known.covered id load
    simp only [Option.getD_none]
    omega
  | some before =>
    obtain ⟨balance, nonneg⟩ := accounted id before load
    simp only [Option.getD_some]
    omega

theorem addBackendKept {s : Traffic F} (known : Known s) (rt : Runtime) (b : Backend) :
    Known (s.withManager (s.sticky.manager.addBackend rt b)) ∧
      (Accounted s → (Accounted (s.withManager (s.sticky.manager.addBackend rt b)) ↔
        b.activeReqs = (loadOf s.sticky.manager b.id).getD 0)) := by
  have loads := addBackendLoad rt s.sticky.manager b
  refine ⟨ledgerKept known (addBackendSound rt known.sound b) (fun k missing => ?_) rfl rfl,
    fun accounted => ⟨fun after => ?_, fun same id n held => ?_⟩⟩
  · have unknown : loadOf (s.sticky.manager.addBackend rt b) k = none := missing
    rw [loads] at unknown
    split at unknown
    · contradiction
    · exact unknown
  · exact (writtenLoad known accounted b.id _).mp (after b.id _ ((loads b.id).trans (if_pos rfl)))
  · have load : loadOf (s.sticky.manager.addBackend rt b) id = some n := held
    rw [loads] at load
    split at load
    · subst id
      rw [← Option.some.inj load]
      exact (writtenLoad known accounted b.id _).mpr same
    · exact accounted id n load

theorem listingMember {bs : List RingSnapshot.BackendSnapshot} {id : UInt32} :
    (listing bs id).isSome = true ↔ ∃ b ∈ bs, b.id = id := by
  simp [listing]

theorem applyBackendsSound (rt : Nat → Runtime) {m : Manager F} (sound : Sound m)
    (bs : List RingSnapshot.BackendSnapshot) : Sound (applyBackends rt m bs) := by
  induction bs generalizing rt m with
  | nil => exact sound
  | cons b rest ih =>
    refine ih _ ?_
    have added := addBackendSound (rt 0) sound (listedBackend b)
    have marked : Sound ((m.addBackend (rt 0) (listedBackend b)).setHealth (rt 1) b.id b.health) :=
      setFieldSound (rt 1) added b.id _ fun _ => rfl
    exact setVnodeCountSound (rt 2) marked b.id _

theorem snapshotKept {s t : Traffic F} (known : Known s) (rt : Nat → Runtime)
    (bs : List RingSnapshot.BackendSnapshot)
    (manager : t.sticky.manager = applyBackends rt s.sticky.manager bs)
    (returned : t.returned = s.returned) (released : t.released = s.released) :
    Known t ∧ (Accounted s →
      (Accounted t ↔ ∀ b ∈ bs, (loadOf s.sticky.manager b.id).getD 0 = 0)) := by
  have loads := applyBackendsLoad rt s.sticky.manager bs
  have sound : Sound t.sticky.manager := manager ▸ applyBackendsSound rt known.sound bs
  refine ⟨ledgerKept known sound (fun k missing => ?_) returned released,
    fun accounted => ⟨fun after b inside => ?_, fun idle id n held => ?_⟩⟩
  · rw [manager, loads] at missing
    split at missing
    · contradiction
    · exact missing
  · have written := after b.id 0
      (by rw [manager, loads, if_pos (listingMember.mpr ⟨b, inside, rfl⟩)])
    rw [returned, released] at written
    exact ((writtenLoad known accounted b.id 0).mp written).symm
  · rw [returned, released]
    rw [manager, loads] at held
    split at held
    · cases held
      obtain ⟨b, inside, same⟩ := listingMember.mp ‹_›
      exact (writtenLoad known accounted id 0).mpr (same ▸ (idle b inside).symm)
    · exact accounted id n held

theorem keptAlways {s t : Traffic F} {condition : Prop} (kept : Known t ∧ (Accounted s → Accounted t))
    (holds : condition) : Known t ∧ (Accounted s → (Accounted t ↔ condition)) :=
  ⟨kept.1, fun accounted => iff_of_true (kept.2 accounted) holds⟩

theorem setFieldKept {s : Traffic F} (known : Known s) (rt : Runtime) (id : UInt32)
    {write : Backend → Backend} (own : ∀ b, (write b).id = b.id)
    (quiet : ∀ b, (write b).activeReqs = b.activeReqs) :
    Known (s.withManager (s.sticky.manager.setField rt id write)) ∧
      (Accounted s → Accounted (s.withManager (s.sticky.manager.setField rt id write))) :=
  quietKept known (setFieldSound rt known.sound id write own) (setFieldLoad rt _ id write quiet) rfl rfl

theorem countedKept {s t : Traffic F} (known : Known s) {b : Backend}
    (found : s.sticky.manager.backends.lookup b.id = some b) (sound : Sound t.sticky.manager)
    (loads : ∀ k, loadOf t.sticky.manager k =
      (loadOf s.sticky.manager k).map fun n => if k = b.id then wrapInt (n + 1) else n)
    (ledger : t.returned = Function.update s.returned b.id (s.returned b.id + 1))
    (released : t.released = s.released) :
    Known t ∧ (Accounted s → (Accounted t ↔ FitsInt (b.activeReqs + 1))) := by
  have load : loadOf s.sticky.manager b.id = some b.activeReqs := by
    rw [loadOf, Manager.backendInfo, found, Option.map_some]
  refine ⟨⟨sound, fun id missing => ?_⟩, fun accounted => ⟨fun after => ?_, fun fits id n held => ?_⟩⟩
  · rw [loads, Option.map_eq_none_iff] at missing
    have other : id ≠ b.id := by
      rintro rfl
      rw [load] at missing
      contradiction
    rw [ledger, released, Function.update_of_ne other]
    exact known.covered id missing
  · obtain ⟨balance, _⟩ := accounted b.id _ load
    have written := after b.id (wrapInt (b.activeReqs + 1)) (by rw [loads, load, Option.map_some, if_pos rfl])
    rw [ledger, released, Function.update_self] at written
    exact wrapIntSame.mp (by omega)
  · rw [loads] at held
    obtain ⟨before, had, grown⟩ := Option.map_eq_some_iff.mp held
    obtain ⟨balance, nonneg⟩ := accounted id before had
    rw [ledger, released]
    by_cases same : id = b.id
    · subst same
      cases load.symm.trans had
      rw [Function.update_self]
      rw [if_pos rfl, wrapIntFits fits] at grown
      omega
    · rw [Function.update_of_ne same]
      rw [if_neg same] at grown
      omega

variable [GoFloat F]

theorem routedKept {s t : Traffic F} (known : Known s) {rt : Runtime} {key : UInt32}
    {next : Manager F} {answer : Except RouteError UInt32}
    (routed : s.sticky.manager.route rt key = .ok (next, answer)) (manager : t.sticky.manager = next)
    (returned : t.returned = (s.answered answer).returned) (released : t.released = s.released) :
    Known t ∧ (Accounted s → (Accounted t ↔ HasRoom rt s.sticky.manager key)) := by
  have sound : Sound t.sticky.manager := manager ▸ routeSound rt known.sound routed
  rcases routeAnswers rt known.sound routed with ⟨empty, same⟩ | ⟨nonempty, b, found, target, _, _, chosen, related⟩
  · cases same
    exact keptAlways (quietKept known sound (fun k => by rw [manager]) returned released) fun some_ => absurd empty some_
  · cases chosen
    have loads := fun k => (congrArg (loadOf · k) manager).trans (recountedLoadOf related k)
    obtain ⟨kept, exactly_⟩ := countedKept known found sound loads returned released
    refine ⟨kept, fun accounted => (exactly_ accounted).trans ⟨fun fits _ c also => ?_, fun room => room nonempty b target⟩⟩
    cases target.symm.trans also
    exact fits

theorem routeStatefulKept {s : Traffic F} (known : Known s) {rt : Runtime} {now : Int}
    {sessionKey : Bytes} {fallbackHash : UInt32} {next : StickyManager F}
    {answer : Except RouteError (UInt32 × Bool)}
    (routed : s.sticky.routeStateful rt now sessionKey fallbackHash = .ok (next, answer)) :
    Known (Traffic.answered { s with sticky := next } (answer.map Prod.fst)) ∧
      (Accounted s → (Accounted (Traffic.answered { s with sticky := next } (answer.map Prod.fst)) ↔
        s.sticky.honoured now sessionKey = none ∧ HasRoom rt s.sticky.manager fallbackHash)) := by
  rcases routeStatefulAnswers rt routed with ⟨id, hit, same⟩ | ⟨miss, first, inner, manager, same⟩
  · cases same
    obtain ⟨_, b, found, _⟩ := honouredExact.mp hit
    have load : loadOf s.sticky.manager id = some b.activeReqs := by
      rw [loadOf, Manager.backendInfo, found, Option.map_some]
    obtain ⟨kept, breaks⟩ := hitBreaks known load
    refine ⟨kept, fun accounted => iff_of_false (breaks accounted) fun miss => ?_⟩
    cases hit.symm.trans miss.1
  · rw [and_iff_right miss]
    refine routedKept known inner ?_ ?_ ?_
    all_goals rw [show answer = _ from same]; cases first.2 <;> first | rfl | exact manager

theorem applySnapshotKept {s t : Traffic F} (known : Known s) {rt : Nat → Runtime} {data : Bytes}
    (taken : step s (rt, .applySnapshot data) = some t) :
    Known t ∧ (Accounted s → (Accounted t ↔ KeepsCount s (rt, .applySnapshot data))) := by
  simp only [step, Option.some.injEq] at taken
  cases parsed : unmarshal data with
  | none =>
    rw [applyMalformed rt _ parsed] at taken
    cases taken
    exact keptAlways (quietKept known known.sound (fun _ => rfl) rfl rfl)
      fun snap other => absurd (parsed.symm.trans other) (by simp)
  | some snap =>
    by_cases newer : s.lastVersion < snap.version
    · rw [applyNewer rt ⟨s.sticky.manager, s.lastVersion⟩ parsed newer] at taken
      cases taken
      obtain ⟨kept, exactly_⟩ := snapshotKept (t := { s.withManager _ with lastVersion := _ }) known rt
        snap.backends rfl rfl rfl
      refine ⟨kept, fun accounted => (exactly_ accounted).trans ⟨fun idle other again _ => ?_, fun idle => ?_⟩⟩
      · cases parsed.symm.trans again
        exact idle
      · exact idle snap parsed newer
    · rw [applyStale rt ⟨s.sticky.manager, s.lastVersion⟩ parsed (Int64.not_lt.mp newer)] at taken
      cases taken
      refine keptAlways (quietKept known known.sound (fun _ => rfl) rfl rfl) fun other again fresh => ?_
      cases parsed.symm.trans again
      exact absurd fresh newer

theorem stepKept {s t : Traffic F} {e : (Nat → Runtime) × Event} (known : Known s)
    (taken : Does step s e t) : Known t ∧ (Accounted s → (Accounted t ↔ KeepsCount s e)) := by
  obtain ⟨rt, e⟩ := e
  cases e with
  | route key =>
    simp only [Does, step] at taken
    split at taken <;> try contradiction
    rename_i next answer routed
    cases taken
    refine routedKept known routed ?_ ?_ ?_
    all_goals cases answer <;> rfl
  | routeStateful now sessionKey fallbackHash =>
    simp only [Does, step] at taken
    split at taken <;> try contradiction
    rename_i routed
    cases taken
    exact routeStatefulKept known routed
  | releaseConn id =>
    simp only [Does, step] at taken
    split at taken <;> try contradiction
    cases taken
    exact keptAlways (releaseKept known ‹_› rfl rfl rfl) trivial
  | addBackend b =>
    cases taken
    exact addBackendKept known (rt 0) b
  | setHealth id healthy =>
    cases taken
    exact keptAlways (setFieldKept known (rt 0) id (fun _ => rfl) fun _ => rfl) trivial
  | setDraining id draining =>
    cases taken
    exact keptAlways (setFieldKept known (rt 0) id (fun _ => rfl) fun _ => rfl) trivial
  | setVnodeCount id count =>
    cases taken
    exact keptAlways (setFieldKept known (rt 0) id (fun _ => rfl) fun _ => rfl) trivial
  | applySnapshot data => exact applySnapshotKept known taken
  | register now sessionKey backendID =>
    cases taken
    exact keptAlways (quietKept known known.sound (fun _ => rfl) rfl rfl) trivial
  | expire sessionKey =>
    cases taken
    exact keptAlways (quietKept known known.sound (fun _ => rfl) rfl rfl) trivial
  | gc now =>
    cases taken
    exact keptAlways (quietKept known known.sound (fun _ => rfl) rfl rfl) trivial

/-! ### Runs -/

theorem accountedRuns (cfg : RingConfig F) (es : List ((Nat → Runtime) × Event)) (t : Traffic F) :
    Run (Along Accounted (Does step)) (newTraffic cfg) es t ↔
      Run (Guarded KeepsCount (Does step)) (newTraffic cfg) es t := by
  have kept : ∀ (s : Traffic F) e t, Known s → Does step s e t → Known t :=
    fun _ _ _ known taken => (stepKept known taken).1
  have exactly_ : ∀ (s : Traffic F) e t, Known s → Accounted s → Does step s e t →
      (Accounted t ↔ KeepsCount s e) := fun _ _ _ known accounted taken => (stepKept known taken).2 accounted
  refine StepRun.alongGuarded kept exactly_ ⟨newManagerSound cfg, fun _ _ => rfl⟩ fun id n held => ?_
  simp [newTraffic, newStickyManager, newManager, loadOf, Manager.backendInfo] at held

def pinnedTraffic : Traffic ℚ := { (newTraffic (load {}) : Traffic ℚ) with sticky := pinnedServers }

theorem affinityHitUncounted : Run (Does step) (newTraffic (load {}))
      [(fun _ => .plain, .addBackend { id := 1, health := true }),
        (fun _ => .plain, .register 0 (ascii "s") 1),
        (fun _ => .plain, .routeStateful 60 (ascii "s") 42)] (pinnedTraffic.answered (.ok 1)) ∧
    ¬ Accounted (pinnedTraffic.answered (.ok 1)) := by
  have found : pinnedServers.manager.backends.lookup 1 =
      some { id := 1, vnodeCount := 150, health := true } := by decide +kernel
  have pinned : pinnedServers.affinity.route 60 (ascii "s") = some 1 := by decide +kernel
  have hit : pinnedTraffic.sticky.honoured 60 (ascii "s") = some 1 :=
    honouredExact.mpr ⟨pinned, _, found, rfl⟩
  have routed : Does step pinnedTraffic (fun _ => .plain, .routeStateful 60 (ascii "s") 42)
      (pinnedTraffic.answered (.ok 1)) := by
    simp only [Does, step, routeStatefulHit .plain hit]
    rfl
  refine ⟨.cons rfl (.cons rfl (.cons routed (.nil _))), fun accounted => ?_⟩
  have load : loadOf pinnedServers.manager 1 = some 0 := by
    rw [loadOf, Manager.backendInfo, found]
    rfl
  exact absurd (accounted 1 0 load).1 (by decide)

end OmegaLb.InFlight
