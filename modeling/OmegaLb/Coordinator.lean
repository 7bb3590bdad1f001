import OmegaLb.RingInvariant
import OmegaLb.SnapshotRoundTrip

/-! The coordinator of coordinator.go: what the leader publishes of its ring and what a
follower makes of a published ring state. Every call of the ring manager takes its lock by
itself, so each may meet a map order of its own. -/
namespace OmegaLb.Consensus
open GoText (Bytes)
open RingManager RingInvariant
open RingSnapshot (BackendSnapshot RingStateSnapshot Timestamp marshal unmarshal unmarshalMarshal)

variable {F : Type}

structure Coordinator (F : Type) where
  ring : Manager F
  lastVersion : Int64

def newCoordinator (rm : Manager F) : Coordinator F := ⟨rm, 0⟩

inductive CoordinatorError where
  | unmarshalRingSnapshot
  deriving DecidableEq, Repr

def CoordinatorError.text : CoordinatorError → String
  | .unmarshalRingSnapshot => "unmarshal ring snapshot: "

/-! ### publishRingState -/

def backendSnapshot (b : Backend) : BackendSnapshot :=
  ⟨b.id, b.ip, b.port, Int64.ofInt b.vnodeCount, Int64.ofInt b.capacityMax, b.health, b.stateful⟩

def readBackends (m : Manager F) (ids : List UInt32) : List BackendSnapshot :=
  ids.filterMap fun id => (m.backendInfo id).map backendSnapshot

def publishRingState (rt : Runtime) (c : Coordinator F) (version : Int64) (updatedAt : Timestamp)
    (nodeID : Bytes) : Bytes :=
  marshal ⟨readBackends c.ring (c.ring.backendIds rt), updatedAt, nodeID, version⟩

/-! ### applySnapshot -/

def listedBackend (bs : BackendSnapshot) : Backend where
  id := bs.id
  ip := bs.ip
  port := bs.port
  vnodeCount := bs.vnodeCount.toInt
  capacityMax := bs.capacityMax.toInt
  health := bs.health
  stateful := bs.stateful

def applyBackend (rt : Nat → Runtime) (m : Manager F) (bs : BackendSnapshot) : Manager F :=
  let m := m.addBackend (rt 0) (listedBackend bs)
  let m := m.setHealth (rt 1) bs.id bs.health
  m.setVnodeCount (rt 2) bs.id bs.vnodeCount.toInt

def applyBackends (rt : Nat → Runtime) : Manager F → List BackendSnapshot → Manager F
  | m, [] => m
  | m, bs :: rest => applyBackends (fun k => rt (k + 3)) (applyBackend rt m bs) rest

def Coordinator.applySnapshot (rt : Nat → Runtime) (c : Coordinator F) (data : Bytes) :
    Coordinator F × Option CoordinatorError :=
  match unmarshal data with
  | none => (c, some .unmarshalRingSnapshot)
  | some snap =>
    if snap.version ≤ c.lastVersion then (c, none)
    else (⟨applyBackends rt c.ring snap.backends, snap.version⟩, none)

/-! ### What is registered afterwards -/

def clampCount (count : Int) : Int := if count < 1 then 1 else count

def shown (bs : BackendSnapshot) : Backend :=
  { listedBackend bs with vnodeCount := clampCount bs.vnodeCount.toInt }

def listing (bs : List BackendSnapshot) (id : UInt32) : Option BackendSnapshot :=
  bs.reverse.find? fun b => b.id = id

theorem applyBackendLookup (rt : Nat → Runtime) (m : Manager F) (bs : BackendSnapshot) (k : UInt32) :
    (applyBackend rt m bs).backends.lookup k =
      if k = bs.id then some (shown bs) else m.backends.lookup k := by
  unfold applyBackend Manager.setVnodeCount Manager.setHealth
  dsimp only
  rw [setFieldLookup, setFieldLookup, setFieldLookup]
  split
  · have added := (addBackendLookups (rt 0) m (listedBackend bs) bs.id).trans (if_pos rfl)
    simp only [if_true, added, Option.map_some]
    rfl
  · rename_i other
    rw [addBackendLookups]
    exact if_neg other

theorem listingCons (bs : BackendSnapshot) (rest : List BackendSnapshot) (id : UInt32) :
    listing (bs :: rest) id = (listing rest id).or (if bs.id = id then some bs else none) := by
  simp [listing, List.find?_append]

theorem applyBackendsLookup (rt : Nat → Runtime) (m : Manager F) (bs : List BackendSnapshot)
    (id : UInt32) : (applyBackends rt m bs).backends.lookup id =
      ((listing bs id).map shown).or (m.backends.lookup id) := by
  induction bs generalizing rt m with
  | nil => rfl
  | cons b rest ih =>
    rw [applyBackends, ih, applyBackendLookup, listingCons]
    cases listing rest id with
    | some later => rfl
    | none =>
      by_cases same : id = b.id
      · simp [same]
      · simp [same, Ne.symm same]

/-! ### One call -/

theorem applyMalformed (rt : Nat → Runtime) (c : Coordinator F) {data : Bytes}
    (malformed : unmarshal data = none) :
    c.applySnapshot rt data = (c, some .unmarshalRingSnapshot) := by
  simp only [Coordinator.applySnapshot, malformed]

theorem applyStale (rt : Nat → Runtime) (c : Coordinator F) {data : Bytes} {snap : RingStateSnapshot}
    (parsed : unmarshal data = some snap) (stale : snap.version ≤ c.lastVersion) :
    c.applySnapshot rt data = (c, none) := by
  simp only [Coordinator.applySnapshot, parsed, if_pos stale]

theorem applyNewer (rt : Nat → Runtime) (c : Coordinator F) {data : Bytes} {snap : RingStateSnapshot}
    (parsed : unmarshal data = some snap) (newer : c.lastVersion < snap.version) :
    c.applySnapshot rt data =
      (⟨applyBackends rt c.ring snap.backends, snap.version⟩, none) := by
  simp only [Coordinator.applySnapshot, parsed, if_neg (Int64.not_le.mpr newer)]

/-! ### What a follower shows of a snapshot -/

def highWater (last : Int64) (snaps : List RingStateSnapshot) : Int64 :=
  (snaps.getLast?.map RingStateSnapshot.version).getD last

structure Applied (c : Coordinator F) (snap : RingStateSnapshot) : Prop where
  version : c.lastVersion = snap.version
  backends : ∀ id bs, listing snap.backends id = some bs → c.ring.backendInfo id = some (shown bs)

theorem applyParsedApplied (rt : Nat → Runtime) {c : Coordinator F} {data : Bytes}
    {snap : RingStateSnapshot} (parsed : unmarshal data = some snap)
    (newer : c.lastVersion < snap.version) : Applied (c.applySnapshot rt data).1 snap := by
  rw [applyNewer rt c parsed newer]
  refine ⟨rfl, fun id bs listed => ?_⟩
  rw [Manager.backendInfo, applyBackendsLookup, listed]
  rfl

theorem applyNewerApplied (rt : Nat → Runtime) {c : Coordinator F} {snap : RingStateSnapshot}
    (newer : c.lastVersion < snap.version) : Applied (c.applySnapshot rt (marshal snap)).1 snap :=
  have applied := applyParsedApplied rt (unmarshalMarshal snap) newer
  ⟨applied.version, applied.backends⟩

end OmegaLb.Consensus
