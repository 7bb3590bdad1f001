import OmegaLb.Config
import OmegaLb.FirstLeast
import OmegaLb.RingHash
import Mathlib.Data.List.Sort

/-! The ring manager of ring.go, helpers.go and slowstart.go. A vnode's pointer to
its backend is the backend's id: rebuild takes every pointer from the map, where
a backend is stored under its own id. Every operation runs under the manager's
lock. ActiveReqs and the slow-start batch come from callers, so the sums they enter
wrap at 64 bits. The request counter starts at zero, and the counts that adjust moves
lie on the ring, whose length is an int: these stay exact. -/
namespace OmegaLb.RingManager
open Config (RingConfig)
open RingHash (murmur3_32 murmur3Finalise vnodeKey)

structure Backend where
  id : UInt32
  ip : Vector UInt8 4 := Vector.replicate 4 0
  port : UInt16 := 0
  vnodeCount : Int := 0
  activeReqs : Int := 0
  capacityMax : Int := 0
  health : Bool := false
  stateful : Bool := false
  draining : Bool := false
  deriving DecidableEq, Repr

structure Vnode where
  pos : UInt32
  backend : UInt32
  deriving DecidableEq, Repr

structure RestoreState where
  backendID : UInt32
  targetVnodes : Int
  currentVnodes : Int
  paused : Bool
  deriving DecidableEq, Repr

structure SlowStartController (F : Type) where
  restoring : GoMap UInt32 RestoreState
  batchSize : Int
  maxErrorPct : F

structure Manager (F : Type) where
  cfg : RingConfig F
  backends : GoMap UInt32 Backend
  ring : List Vnode
  reqCount : Int
  slowStart : SlowStartController F

/-- What the language leaves open in one call: the order in which a map is
iterated, and which sorted permutation sort.Slice returns. -/
structure Runtime where
  order : List Backend → List Backend
  orderPerm : ∀ bs, (order bs).Perm bs
  keyOrder : List UInt32 → List UInt32
  keyOrderPerm : ∀ ks, (keyOrder ks).Perm ks
  sort : List Vnode → List Vnode
  sortPerm : ∀ vs, (sort vs).Perm vs
  sorted : ∀ vs, (sort vs).Pairwise fun a b => a.pos ≤ b.pos

def Runtime.plain : Runtime where
  order := id
  orderPerm := fun _ => .rfl
  keyOrder := id
  keyOrderPerm := fun _ => .rfl
  sort := fun vs => vs.mergeSort fun a b => decide (a.pos ≤ b.pos)
  sortPerm := fun vs => List.mergeSort_perm vs _
  sorted := fun vs => by
    have ordered := @List.pairwise_mergeSort Vnode (fun a b => decide (a.pos ≤ b.pos))
      (fun a b c left right => by
        simp only [decide_eq_true_eq] at *
        exact UInt32.le_trans left right)
      (fun a b => by
        simp only [Bool.or_eq_true, decide_eq_true_eq]
        exact UInt32.le_total a.pos b.pos) vs
    simpa using ordered

variable {F : Type} [GoFloat F]

def newSlowStartController (batchSize maxErrPct : Int) : SlowStartController F where
  restoring := ∅
  batchSize := if batchSize ≤ 0 then 15 else batchSize
  maxErrorPct := if maxErrPct > 0 then GoFloat.ofInt maxErrPct else GoFloat.lit 1.0

def newManager (cfg : RingConfig F) : Manager F :=
  let cfg := if cfg.vnodesPerServer = 0 then { cfg with vnodesPerServer := 150 } else cfg
  let cfg := if GoFloat.isZero cfg.boundedLoadBeta then
    { cfg with boundedLoadBeta := GoFloat.lit 1.25 } else cfg
  { cfg := cfg, backends := ∅, ring := [], reqCount := 0,
    slowStart := newSlowStartController cfg.slowStartBatchSize cfg.slowStartMaxErrorRatePct }

/-! ### The ring and the operations that rebuild it -/

def Backend.eligible (b : Backend) : Bool := b.health && !b.draining

def Backend.vnodes (b : Backend) : List Vnode :=
  if b.eligible then
    (List.range b.vnodeCount.toNat).map fun i => ⟨murmur3_32 (vnodeKey b.id i), b.id⟩
  else []

def Manager.rebuild (rt : Runtime) (m : Manager F) : Manager F :=
  { m with ring := rt.sort ((rt.order (GoMap.values m.backends)).flatMap Backend.vnodes) }

def Manager.addBackend (rt : Runtime) (m : Manager F) (b : Backend) : Manager F :=
  let b := if b.id ∈ m.backends then b else { b with vnodeCount := m.cfg.vnodesPerServer }
  { m with backends := m.backends.insert b.id b }.rebuild rt

def Manager.backendInfo (m : Manager F) (id : UInt32) : Option Backend := m.backends.lookup id

def Manager.backendIds (rt : Runtime) (m : Manager F) : List UInt32 := rt.keyOrder m.backends.keys

def Manager.removeBackend (rt : Runtime) (m : Manager F) (id : UInt32) : Manager F :=
  { m with backends := m.backends.erase id }.rebuild rt

def Manager.setField (rt : Runtime) (m : Manager F) (id : UInt32) (write : Backend → Backend) :
    Manager F :=
  if id ∈ m.backends then { m with backends := GoMap.modify m.backends id write }.rebuild rt else m

def Manager.setHealth (rt : Runtime) (m : Manager F) (id : UInt32) (healthy : Bool) : Manager F :=
  m.setField rt id fun b => { b with health := healthy }

def Manager.setDraining (rt : Runtime) (m : Manager F) (id : UInt32) (draining : Bool) :
    Manager F × Bool :=
  (m.setField rt id fun b => { b with draining := draining }, decide (id ∈ m.backends))

def Manager.setDrainingAll (rt : Runtime) (m : Manager F) (draining : Bool) : Manager F × Int :=
  ({ m with backends := GoMap.mapValues m.backends fun _ b =>
      { b with draining := draining } }.rebuild rt,
    GoMap.size m.backends)

def Manager.setVnodeCount (rt : Runtime) (m : Manager F) (id : UInt32) (count : Int) : Manager F :=
  m.setField rt id fun b => { b with vnodeCount := if count < 1 then 1 else count }

def Backend.release (b : Backend) : Backend :=
  if b.activeReqs > 0 then { b with activeReqs := b.activeReqs - 1 } else b

theorem releaseWrites (b : Backend) : b.release = { b with activeReqs := b.release.activeReqs } := by
  unfold Backend.release
  split <;> rfl

def Manager.releaseConn (m : Manager F) (id : UInt32) : Manager F :=
  { m with backends := GoMap.modify m.backends id Backend.release }

/-! ### Route -/

def bisectLoop (ring : List Vnode) (pos : UInt32) (lo hi : Nat) : Go Nat :=
  -- each probe of the ring is a checked index
  if lo < hi then
    let mid := (lo + hi) / 2
    match goIndex ring mid with
    | .error p => .error p
    | .ok vn => if vn.pos ≤ pos then bisectLoop ring pos (mid + 1) hi else bisectLoop ring pos lo mid
  else .ok lo
termination_by hi - lo

def Manager.bisectRight (m : Manager F) (pos : UInt32) : Go Nat := do
  let lo ← bisectLoop m.ring pos 0 m.ring.length
  return if lo ≥ m.ring.length then 0 else lo

def Manager.totalActiveReqs (m : Manager F) : Int :=
  wrapInt ((GoMap.values m.backends).map Backend.activeReqs).sum

def max64 (a b : Int) : Int := if a > b then a else b

def Manager.mean (m : Manager F) : F :=
  -- float64(totalActiveReqs) / float64(max64(len(backends), 1))
  GoFloat.ofInt m.totalActiveReqs / GoFloat.ofInt (max64 (GoMap.size m.backends) 1)

def Manager.probeRing (m : Manager F) (idx : Int) : Nat → Nat → Go (Option Backend)
  | 0, _ => .ok none
  | remaining + 1, probe => do
    let i ← goRem (idx + probe) m.ring.length
    let vn ← goIndex m.ring i
    match m.backends.lookup vn.backend with
    | none => .error .nilDereference
    | some b =>
      if !b.health then m.probeRing idx remaining (probe + 1)
      else if GoFloat.gt (GoFloat.ofInt b.activeReqs) (m.cfg.boundedLoadBeta * m.mean) then
        m.probeRing idx remaining (probe + 1)
      else return some b

def Backend.addVnodes (n : Int) (b : Backend) : Backend := { b with vnodeCount := b.vnodeCount + n }

def Backend.countRequest (b : Backend) : Backend := { b with activeReqs := wrapInt (b.activeReqs + 1) }

def hotter (best : Option Backend) (b : Backend) : Option Backend :=
  match best with
  | none => some b
  | some h => if b.activeReqs > h.activeReqs then some b else some h

def cooler (best : Option Backend) (b : Backend) : Option Backend :=
  match best with
  | none => some b
  | some c => if b.activeReqs < c.activeReqs then some b else some c

omit [GoFloat F] in
theorem hotterKeeps : hotter = FirstLeast.keepLeast fun b => -b.activeReqs := by
  funext best b
  cases best with
  | none => rfl
  | some h =>
    have same : b.activeReqs > h.activeReqs ↔ -b.activeReqs < -h.activeReqs := by omega
    simp only [hotter, FirstLeast.keepLeast, same]

omit [GoFloat F] in
theorem coolerKeeps : cooler = FirstLeast.keepLeast Backend.activeReqs := by
  funext best b
  cases best <;> rfl

def Manager.leastLoaded (rt : Runtime) (m : Manager F) : Option Backend :=
  ((rt.order (GoMap.values m.backends)).filter Backend.eligible).foldl cooler none

def Backend.adjustable (b : Backend) : Bool := b.health && !b.stateful && !b.draining

def Manager.adjust (rt : Runtime) (m : Manager F) : Manager F :=
  let bs := (rt.order (GoMap.values m.backends)).filter Backend.adjustable
  match bs.foldl hotter none, bs.foldl cooler none with
  | some hottest, some coolest =>
    if hottest.id = coolest.id then m
    else if GoFloat.gt (GoFloat.ofInt hottest.activeReqs) (m.cfg.adjustThreshold * m.mean) then
      if hottest.vnodeCount > 1 then
        let backends := GoMap.modify m.backends hottest.id (Backend.addVnodes (-1))
        { m with backends := GoMap.modify backends coolest.id (Backend.addVnodes 1) }.rebuild rt
      else m
    else m
  | _, _ => m

inductive RouteError where
  | noBackendsInRing
  | noHealthyBackends
  deriving DecidableEq, Repr

def RouteError.text : RouteError → String
  | .noBackendsInRing => "no backends in ring"
  | .noHealthyBackends => "no healthy backends"

def Manager.route (rt : Runtime) (m : Manager F) (key : UInt32) :
    Go (Manager F × Except RouteError UInt32) :=
  if m.ring.length = 0 then .ok (m, .error .noBackendsInRing)
  else do
    let idx ← m.bisectRight (murmur3Finalise key)
    let found ← m.probeRing idx m.ring.length 0
    -- all overloaded: pick the least loaded
    match found <|> m.leastLoaded rt with
    | none => return (m, .error .noHealthyBackends)
    | some chosen =>
      let m := { m with
        backends := GoMap.modify m.backends chosen.id Backend.countRequest
        reqCount := m.reqCount + 1 }
      let turn ← goRem m.reqCount m.cfg.adjustEveryN
      return (if turn = 0 then m.adjust rt else m, .ok chosen.id)

/-! ### Proactive adjustment -/

def linearSlope (samples : List F) : F :=
  if GoFloat.gt (GoFloat.lit 2) (GoFloat.ofInt samples.length : F) then GoFloat.lit 0
  else
    let pts := samples.drop (if samples.length > 10 then samples.length - 10 else 0)
    let n : F := GoFloat.ofInt pts.length
    let (sumX, sumY, sumXY, sumXX) := pts.zipIdx.foldl (fun (sx, sy, sxy, sxx) (y, i) =>
      let x : F := GoFloat.ofInt i
      (sx + x, sy + y, sxy + x * y, sxx + x * x))
      (GoFloat.lit 0, GoFloat.lit 0, GoFloat.lit 0, GoFloat.lit 0)
    let denom := n * sumXX - sumX * sumX
    if GoFloat.isZero denom then GoFloat.lit 0 else (n * sumXY - sumX * sumY) / denom

def Backend.cap (b : Backend) : F :=
  let cap : F := GoFloat.ofInt b.capacityMax
  if GoFloat.isZero cap then GoFloat.lit 1000 else cap

def predictedLoad (samples : List F) : F :=
  let currentLoad := samples.getLast?.getD (GoFloat.lit 0)
  currentLoad + linearSlope samples * GoFloat.lit 30.0

def vnodeReduction (F : Type) [GoFloat F] (vnodeCount : Int) : Int :=
  let reduction := GoFloat.ceil (GoFloat.ofInt vnodeCount * (GoFloat.lit 0.15 : F))
  if reduction < 1 then 1 else reduction

def preMigrate (samples : List F) (b : Backend) : Backend :=
  if !b.health || b.draining then b
  else if GoFloat.gt (predictedLoad samples / b.cap) (GoFloat.lit 0.75) && decide (b.vnodeCount > 1) then
    { b with vnodeCount := b.vnodeCount - vnodeReduction F b.vnodeCount }
  else b

def Manager.proactiveAdjust (rt : Runtime) (m : Manager F) (loadWindow : GoMap UInt32 (List F)) :
    Manager F :=
  { m with backends := loadWindow.entries.foldl (fun backends (e : (_ : UInt32) × List F) =>
      GoMap.modify backends e.1 (preMigrate e.2)) m.backends }.rebuild rt

/-! ### Slow start, one tick at a time -/

def Manager.beginSlowStart (m : Manager F) (id : UInt32) : Manager F :=
  if id ∈ m.slowStart.restoring then m
  else
    let target := if m.cfg.vnodesPerServer ≤ 0 then 150 else m.cfg.vnodesPerServer
    { m with slowStart.restoring := m.slowStart.restoring.insert id ⟨id, target, 0, false⟩ }

def Manager.cancelSlowStart (m : Manager F) (id : UInt32) : Manager F :=
  { m with slowStart.restoring := m.slowStart.restoring.erase id }

def errorPct (errorRate : Option (UInt32 → F)) (id : UInt32) : F :=
  match errorRate with
  | some rate => rate id
  | none => GoFloat.lit 0.0

def tickOne (rt : Runtime) (errorRate : Option (UInt32 → F)) (acc : Manager F × List UInt32)
    (id : UInt32) : Manager F × List UInt32 :=
  -- `done` collects the ids that are deleted once the loop is over
  let (m, done) := acc
  match m.slowStart.restoring.lookup id with
  | none => (m, done)
  | some rs =>
    if GoFloat.gt (errorPct errorRate id) m.slowStart.maxErrorPct then
      ({ m with slowStart.restoring := m.slowStart.restoring.insert id { rs with paused := true } }, done)
    else
      let added := wrapInt (rs.currentVnodes + m.slowStart.batchSize)
      let newCount := if added > rs.targetVnodes then rs.targetVnodes else added
      let rs := { rs with paused := false, currentVnodes := newCount }
      let m := { m with slowStart.restoring := m.slowStart.restoring.insert id rs }
      (m.setVnodeCount rt id newCount, if newCount ≥ rs.targetVnodes then done ++ [id] else done)

def Manager.slowStartTick (rt : Runtime) (m : Manager F) (errorRate : Option (UInt32 → F)) :
    Manager F :=
  let (m, done) := (rt.keyOrder m.slowStart.restoring.keys).foldl (tickOne rt errorRate) (m, [])
  { m with slowStart.restoring := done.foldl (fun r id => r.erase id) m.slowStart.restoring }

/-! ### Any operation -/

inductive Op (F : Type) where
  | addBackend (b : Backend)
  | removeBackend (id : UInt32)
  | setHealth (id : UInt32) (healthy : Bool)
  | setDraining (id : UInt32) (draining : Bool)
  | setDrainingAll (draining : Bool)
  | setVnodeCount (id : UInt32) (count : Int)
  | releaseConn (id : UInt32)
  | route (key : UInt32)
  | proactiveAdjust (loadWindow : GoMap UInt32 (List F))
  | beginSlowStart (id : UInt32)
  | cancelSlowStart (id : UInt32)
  | slowStartTick (errorRate : Option (UInt32 → F))

def Manager.apply (rt : Runtime) (m : Manager F) : Op F → Go (Manager F)
  | .addBackend b => .ok (m.addBackend rt b)
  | .removeBackend id => .ok (m.removeBackend rt id)
  | .setHealth id healthy => .ok (m.setHealth rt id healthy)
  | .setDraining id draining => .ok (m.setDraining rt id draining).1
  | .setDrainingAll draining => .ok (m.setDrainingAll rt draining).1
  | .setVnodeCount id count => .ok (m.setVnodeCount rt id count)
  | .releaseConn id => .ok (m.releaseConn id)
  | .route key => do return (← m.route rt key).1
  | .proactiveAdjust loadWindow => .ok (m.proactiveAdjust rt loadWindow)
  | .beginSlowStart id => .ok (m.beginSlowStart id)
  | .cancelSlowStart id => .ok (m.cancelSlowStart id)
  | .slowStartTick errorRate => .ok (m.slowStartTick rt errorRate)

def Step (m : Manager F) (op : Runtime × Op F) (next : Manager F) : Prop :=
  m.apply op.1 op.2 = .ok next

end OmegaLb.RingManager
