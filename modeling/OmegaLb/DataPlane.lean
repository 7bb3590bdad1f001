import OmegaLb.MetricsSteps
import OmegaLb.PolicySteps
import OmegaLb.RouteManager
import OmegaLb.StepRun

/-! The five programs from filter_manager to metrics_collector as the CPUs run them: a CPU takes
the steps of one chain in their order, and steps of other CPUs and writes of the control plane
fall between them, also between two accesses of one program to the maps. A chain is not interrupted
on its own CPU. -/
namespace OmegaLb.DataPlane
open KernelMaps LbPolicy MetricsSteps PolicySteps RelayChain RouteManager
open StepRun (Run)
open Reconcile (BackendEntry)

def progRouteManager : Nat := 1

/-- What filter_manager and lb_policy read of struct bpf_sock_ops; `sendmsg` says whether the
operation is BPF_SOCK_OPS_TX_SENDMSG_CB. -/
structure SockOps where
  sendmsg : Bool
  localIp4 : UInt32
  remoteIp4 : UInt32
  localPort : UInt32
  remotePort : UInt32
  deriving DecidableEq, Repr

structure FlowKey where
  srcIp : UInt32
  dstIp : UInt32
  srcPort : UInt16
  dstPort : UInt16
  proto : UInt8
  deriving DecidableEq, Repr

def bpfNtohl (x : UInt32) : UInt32 :=
  (x <<< 24) ||| ((x <<< 8) &&& (0xFF0000 : UInt32)) ||| ((x >>> 8) &&& (0xFF00 : UInt32)) ||| (x >>> 24)

def SockOps.serviceId (skops : SockOps) : UInt32 := bpfNtohl skops.remotePort &&& (0xFFFF : UInt32)

def SockOps.flowKey (skops : SockOps) : FlowKey :=
  ⟨skops.localIp4, skops.remoteIp4, skops.localPort.toUInt16, skops.remotePort.toUInt16, 6⟩

def SockOps.flow (skops : SockOps) : Flow := ⟨skops.remoteIp4, skops.remotePort⟩

/-! ### The state -/

/-- The next instruction of a chain: in filter_manager the fetch-and-sub of consume_token, its
refund, the lookup of the flow or its insertion, and later a program of the prog array, or where it
stands in lb_policy or in metrics_collector. -/
inductive Point where
  | limiting
  | refusing
  | counting
  | inserting
  | program (slot : Nat)
  | walking (walk : Walk)
  | choosing (id : UInt32) (be : BackendEntry)
  | measuring (stage : Stage)
  deriving DecidableEq, Repr

structure Chain where
  skops : SockOps
  point : Point
  deriving DecidableEq, Repr

structure World where
  routing : Routing
  rateLimitMap : UInt32 → Option Int
  flowMetrics : FlowKey → Option UInt64
  running : Nat → Option Chain

def World.kernel (w : World) : Kernel := w.routing.kernel

def World.withKernel (w : World) (kernel : Kernel) : World :=
  { w with routing := { w.routing with kernel := kernel } }

def World.goOn (w : World) (cpu : Nat) (chain : Option Chain) : World :=
  { w with running := Function.update w.running cpu chain }

def World.setTokens (w : World) (serviceId : UInt32) (tokens : Int) : World :=
  { w with rateLimitMap := Function.update w.rateLimitMap serviceId (some tokens) }

/-- bpf_tail_call at the end of a program. -/
def World.follow (w : World) (cpu : Nat) (skops : SockOps) : Verdict → World
  | .pass => w.goOn cpu none
  | .tailCall slot =>
    w.goOn cpu (if w.kernel.progArray slot then some ⟨skops, .program slot⟩ else none)

/-- What a step sees besides the maps: what metrics_collector reads, and the flows that an
insertion pushes out of the LRU hash. -/
structure Outside where
  reading : Reading
  evicts : FlowKey → Bool

/-- The maps that the control plane writes. -/
structure Control where
  ringMeta : RingMeta
  haRing : GoMap UInt32 UInt32
  maglevTable : Maglev.MaglevTable
  instanceRegistry : GoMap UInt32 BackendEntry
  circuitState : GoMap UInt32 UInt32
  serviceConfigMap : UInt32 → Option (UInt32 → Option RouteRule)
  rateLimitMap : UInt32 → Option Int
  progArray : Nat → Bool
  redirectHash : UInt32 → Int

def World.control (w : World) (c : Control) : World :=
  { w with
    routing := { w.routing with
      kernel := { w.routing.kernel with
        ringMeta := c.ringMeta
        haRing := c.haRing
        maglevTable := c.maglevTable
        instanceRegistry := c.instanceRegistry
        circuitState := c.circuitState
        progArray := c.progArray
        redirectHash := c.redirectHash }
      serviceConfigMap := c.serviceConfigMap }
    rateLimitMap := c.rateLimitMap }

/-! ### The programs -/

/-- filter_manager up to consume_token. -/
def World.filterManager (w : World) (cpu : Nat) (skops : SockOps) : World :=
  let kernel := { w.kernel with tailDepth := Function.update w.kernel.tailDepth cpu 0 }
  let ctx := { w.routing.scratchMap cpu with protocol := protoHttp1, serviceId := skops.serviceId }
  { w with routing := { w.routing with
      kernel := kernel
      scratchMap := Function.update w.routing.scratchMap cpu ctx } }

/-- bpf_map_update_elem with BPF_NOEXIST on the LRU hash. -/
def insertFlow (flowMetrics : FlowKey → Option UInt64) (key : FlowKey) (evicts : FlowKey → Bool) :
    FlowKey → Option UInt64 :=
  match flowMetrics key with
  | some _ => flowMetrics
  | none => Function.update (fun other => if evicts other then none else flowMetrics other) key (some 1)

/-- What a step did, for the one who watches; the programs themselves keep no such record. -/
inductive Did where
  | ignored
  | entered
  | admitted
  | overdrawn
  | dropped
  | unseen
  | counted
  | routed (cluster : UInt32)
  | looked
  | picked (id : UInt32)
  | unrouted
  | relayed (id : UInt32) (spliced : Bool)
  | unspliced (id : UInt32)
  | missed (id : UInt32)
  | accounted (id : UInt32) (kept : Bool)
  | settled (id : UInt32)
  | emitted (id : UInt32) (isError : Bool)
  | stopped
  | written
  deriving DecidableEq, Repr

/-- The slot of the tail call that a step ends with. -/
def Did.calls : Did → Option Nat
  | .counted => some progRouteManager
  | .routed _ => some RouteManager.progLbPolicy
  | .picked _ => some progConnRelay
  | .relayed _ _ => some progMetrics
  | _ => none

def World.found (w : World) (cpu : Nat) (skops : SockOps) : Found → World × Did
  | .still walk => (w.goOn cpu (some ⟨skops, .walking walk⟩), .looked)
  | .missed => (w.goOn cpu none, .unrouted)
  | .chosen id be => (w.goOn cpu (some ⟨skops, .choosing id be⟩), .looked)

/-- lb_policy, up to its first key. -/
def World.policy (w : World) (cpu : Nat) (skops : SockOps) : World × Did :=
  match w.kernel.enter cpu with
  | none => (w.goOn cpu none, .stopped)
  | some kernel => (w.withKernel kernel).found cpu skops (startWalk kernel skops.flow)

/-- lb_policy from its choice on; chosen_id is also the mark of no choice. -/
def World.choose (w : World) (cpu : Nat) (skops : SockOps) (id : UInt32) (be : BackendEntry) : World × Did :=
  let w := w.withKernel (pick w.kernel cpu id be)
  if id = 0 then (w.goOn cpu none, .unrouted)
  else (w.follow cpu skops (.tailCall progConnRelay), .picked id)

/-- metrics_collector, up to its lookup and what it writes to a slot it finds. -/
def World.metrics (w : World) (cpu : Nat) (skops : SockOps) (o : Reading) : World × Did :=
  match w.kernel.enter cpu with
  | none => (w.goOn cpu none, .stopped)
  | some kernel =>
    let id := (kernel.selection cpu).instanceId
    if id = 0 then ((w.withKernel kernel).goOn cpu none, .stopped)
    else
      let (kernel, stage) := lookUp kernel cpu ⟨id, o.now, o.isError⟩
      ((w.withKernel kernel).goOn cpu (some ⟨skops, .measuring stage⟩),
        match stage with
        | .creating s => .missed s.id
        | _ => .accounted id true)

/-- What a stage of metrics_collector does in these maps. -/
def stageDid (k : Kernel) : Stage → Did
  | .creating s => .accounted s.id (s.id ∉ k.instanceStats ∧ Fits k.instanceStats s.id)
  | .judging s _ => .settled s.id
  | .closing s _ => .settled s.id
  | .emitting s _ => .emitted s.id s.isError

theorem stageCalls (k : Kernel) (stage : Stage) : (stageDid k stage).calls = none := by
  cases stage <;> rfl

def World.runProgram (w : World) (cpu : Nat) (skops : SockOps) (slot : Nat) (o : Outside) : World × Did :=
  if slot = progRouteManager then
    -- its lookups are one step: no later program reads the cluster that they come to
    let (routing, verdict) := routeManager w.routing cpu
    ({ w with routing := routing }.follow cpu skops verdict, .routed (routing.scratchMap cpu).clusterId)
  else if slot = progLbPolicy then w.policy cpu skops
  else if slot = progConnRelay then
    let (kernel, verdict) := connectionRelay w.kernel cpu
    let id := (kernel.selection cpu).instanceId
    ((w.withKernel kernel).follow cpu skops verdict,
      if verdict = .pass then .unspliced id else .relayed id (w.kernel.redirectHash id = skPass))
  else if slot = progMetrics then w.metrics cpu skops o.reading
  -- no other slot is filled or called
  else (w.goOn cpu none, .stopped)

def World.advance (w : World) (cpu : Nat) (chain : Chain) (o : Outside) : World × Did :=
  let serviceId := chain.skops.serviceId
  match chain.point with
  | .limiting =>
    match w.rateLimitMap serviceId with
    | none => (w.goOn cpu (some { chain with point := .counting }), .admitted)
    | some cur =>
      let w := w.setTokens serviceId (cur - 1)
      if cur ≤ 0 then (w.goOn cpu (some { chain with point := .refusing }), .overdrawn)
      else (w.goOn cpu (some { chain with point := .counting }), .admitted)
  | .refusing =>
    -- SK_DROP
    let w := match w.rateLimitMap serviceId with
      | some cur => w.setTokens serviceId (cur + 1)
      | none => w
    (w.goOn cpu none, .dropped)
  | .counting =>
    match w.flowMetrics chain.skops.flowKey with
    | none => (w.goOn cpu (some { chain with point := .inserting }), .unseen)
    | some requestCount =>
      let flowMetrics := Function.update w.flowMetrics chain.skops.flowKey (some (requestCount + 1))
      ({ w with flowMetrics := flowMetrics }.follow cpu chain.skops (.tailCall progRouteManager), .counted)
  | .inserting =>
    let flowMetrics := insertFlow w.flowMetrics chain.skops.flowKey o.evicts
    ({ w with flowMetrics := flowMetrics }.follow cpu chain.skops (.tailCall progRouteManager), .counted)
  | .program slot =>
    let (next, did) := w.runProgram cpu chain.skops slot o
    (next, if w.kernel.tailDepth cpu ≥ tailCallDepthMax then .stopped else did)
  | .walking walk => w.found cpu chain.skops (walk.look w.kernel)
  | .choosing id be => w.choose cpu chain.skops id be
  | .measuring stage =>
    let (kernel, next) := stage.step w.kernel cpu o.reading.reserved
    ((w.withKernel kernel).goOn cpu (next.map fun stage => ⟨chain.skops, .measuring stage⟩), stageDid w.kernel stage)

inductive Move where
  | send (cpu : Nat) (skops : SockOps)
  | go (cpu : Nat) (o : Outside)
  | control (c : Control)

/-- The CPU and the request of a step, where it has them, what it did, and whether its tail call found a
program, where it makes one. -/
structure Mark where
  cpu : Option Nat
  skops : SockOps
  did : Did
  called : Option Bool
  deriving DecidableEq, Repr

def noSkops : SockOps := ⟨false, 0, 0, 0, 0⟩

def World.exec (w : World) : Move → Option (World × Mark)
  | .send cpu skops =>
    match w.running cpu with
    | some _ => none
    | none =>
      if skops.sendmsg then
        some ((w.filterManager cpu skops).goOn cpu (some ⟨skops, .limiting⟩), ⟨cpu, skops, .entered, none⟩)
      else some (w, ⟨cpu, skops, .ignored, none⟩)
  | .go cpu o =>
    match w.running cpu with
    | none => none
    | some chain =>
      let (next, did) := w.advance cpu chain o
      some (next, ⟨cpu, chain.skops, did, did.calls.map next.kernel.progArray⟩)
  | .control c => some (w.control c, ⟨none, noSkops, .written, none⟩)

def Steps (w : World) (e : Move × Mark) (next : World) : Prop := w.exec e.1 = some (next, e.2)

/-! ### What a step can do -/

section
variable (w : World) (cpu : Nat) (skops : SockOps) (o : Outside)

def World.deeper : World := w.withKernel (w.kernel.deeper cpu)

def World.selected : UInt32 := (w.kernel.selection cpu).instanceId

def World.seen : Seen := ⟨w.selected cpu, o.reading.now, o.reading.isError⟩

/-- metrics_collector past its guard, with a slot to write to. -/
def World.book (slots : Nat → InstanceStats) : World :=
  let stats := booked slots cpu (w.seen cpu o)
  w.withKernel { w.kernel.deeper cpu with
    instanceStats := w.kernel.instanceStats.insert (w.selected cpu) (Function.update slots cpu stats) }

/-- route_manager past its guard. -/
def World.route : World :=
  let ctx := { w.routing.scratchMap cpu with clusterId := matchedCluster w.routing (w.routing.scratchMap cpu) }
  { w.deeper cpu with routing := { (w.deeper cpu).routing with
      scratchMap := Function.update w.routing.scratchMap cpu ctx } }

def World.splice : World :=
  let id := w.selected cpu
  if w.kernel.redirectHash id = skPass then w.withKernel (splicedTo w.kernel cpu id) else w.deeper cpu

inductive Advanced : Point → World → Did → Prop where
  | unlimited (free : w.rateLimitMap skops.serviceId = none) :
      Advanced .limiting (w.goOn cpu (some ⟨skops, .counting⟩)) .admitted
  | admitted {cur} (read : w.rateLimitMap skops.serviceId = some cur) (positive : 0 < cur) :
      Advanced .limiting
        ((w.setTokens skops.serviceId (cur - 1)).goOn cpu (some ⟨skops, .counting⟩)) .admitted
  | overdrawn {cur} (read : w.rateLimitMap skops.serviceId = some cur) (empty : cur ≤ 0) :
      Advanced .limiting
        ((w.setTokens skops.serviceId (cur - 1)).goOn cpu (some ⟨skops, .refusing⟩)) .overdrawn
  | refunded {cur} (read : w.rateLimitMap skops.serviceId = some cur) :
      Advanced .refusing ((w.setTokens skops.serviceId (cur + 1)).goOn cpu none) .dropped
  | dropped (gone : w.rateLimitMap skops.serviceId = none) :
      Advanced .refusing (w.goOn cpu none) .dropped
  | counted {requestCount} (found : w.flowMetrics skops.flowKey = some requestCount) :
      Advanced .counting
        ({ w with flowMetrics := Function.update w.flowMetrics skops.flowKey (some (requestCount + 1)) }.follow cpu skops
          (.tailCall progRouteManager)) .counted
  | unseen (missing : w.flowMetrics skops.flowKey = none) :
      Advanced .counting (w.goOn cpu (some ⟨skops, .inserting⟩)) .unseen
  | inserted : Advanced .inserting
      ({ w with flowMetrics := insertFlow w.flowMetrics skops.flowKey o.evicts }.follow cpu skops
        (.tailCall progRouteManager)) .counted
  | stopped {slot} (deep : ¬ w.kernel.tailDepth cpu < tailCallDepthMax ∨
      slot ∉ [progRouteManager, progLbPolicy, progConnRelay, progMetrics]) :
      Advanced (.program slot) (w.goOn cpu none) .stopped
  | routed (shallow : w.kernel.tailDepth cpu < tailCallDepthMax) :
      Advanced (.program progRouteManager) ((w.route cpu).follow cpu skops (.tailCall progLbPolicy))
        (.routed (matchedCluster w.routing (w.routing.scratchMap cpu)))
  | searched (shallow : w.kernel.tailDepth cpu < tailCallDepthMax) (filled : w.kernel.ringMeta.size ≠ 0) :
      Advanced (.program progLbPolicy)
        ((w.deeper cpu).goOn cpu (some ⟨skops, .walking (.candidate (ringPos skops.flow))⟩)) .looked
  | ringless (shallow : w.kernel.tailDepth cpu < tailCallDepthMax) (empty : w.kernel.ringMeta.size = 0) :
      Advanced (.program progLbPolicy) ((w.deeper cpu).goOn cpu none) .unrouted
  | looked {walk next} (look : walk.look w.kernel = .still next) :
      Advanced (.walking walk) (w.goOn cpu (some ⟨skops, .walking next⟩)) .looked
  | chosen {walk id be} (look : walk.look w.kernel = .chosen id be) :
      Advanced (.walking walk) (w.goOn cpu (some ⟨skops, .choosing id be⟩)) .looked
  | unrouted {walk} (look : walk.look w.kernel = .missed) :
      Advanced (.walking walk) (w.goOn cpu none) .unrouted
  | picked {id be} (nonzero : id ≠ 0) :
      Advanced (.choosing id be)
        ((w.withKernel (pick w.kernel cpu id be)).follow cpu skops (.tailCall progConnRelay)) (.picked id)
  | pickedZero {be} :
      Advanced (.choosing 0 be) ((w.withKernel (pick w.kernel cpu 0 be)).goOn cpu none) .unrouted
  | relayed (shallow : w.kernel.tailDepth cpu < tailCallDepthMax) (nonzero : w.selected cpu ≠ 0)
      (found : ¬ w.kernel.redirectHash (w.selected cpu) < 0) :
      Advanced (.program progConnRelay) ((w.splice cpu).follow cpu skops (.tailCall progMetrics))
        (.relayed (w.selected cpu) (w.kernel.redirectHash (w.selected cpu) = skPass))
  | unspliced (shallow : w.kernel.tailDepth cpu < tailCallDepthMax)
      (none_ : w.selected cpu = 0 ∨ w.kernel.redirectHash (w.selected cpu) < 0) :
      Advanced (.program progConnRelay) ((w.deeper cpu).goOn cpu none) (.unspliced (w.selected cpu))
  | accounted {slots} (shallow : w.kernel.tailDepth cpu < tailCallDepthMax) (nonzero : w.selected cpu ≠ 0)
      (found : w.kernel.instanceStats.lookup (w.selected cpu) = some slots) :
      Advanced (.program progMetrics)
        ((w.book cpu o slots).goOn cpu
          (some ⟨skops, .measuring (.judging (w.seen cpu o) (booked slots cpu (w.seen cpu o)))⟩))
        (.accounted (w.selected cpu) true)
  | missed (shallow : w.kernel.tailDepth cpu < tailCallDepthMax) (nonzero : w.selected cpu ≠ 0)
      (missing : w.kernel.instanceStats.lookup (w.selected cpu) = none) :
      Advanced (.program progMetrics) ((w.deeper cpu).goOn cpu (some ⟨skops, .measuring (.creating (w.seen cpu o))⟩))
        (.missed (w.selected cpu))
  | unmeasured (shallow : w.kernel.tailDepth cpu < tailCallDepthMax) (zero : w.selected cpu = 0) :
      Advanced (.program progMetrics) ((w.deeper cpu).goOn cpu none) .stopped
  | measured (stage : Stage) : Advanced (.measuring stage)
      ((w.withKernel (stage.step w.kernel cpu o.reading.reserved).1).goOn cpu
        ((stage.step w.kernel cpu o.reading.reserved).2.map fun stage => ⟨skops, .measuring stage⟩))
      (stageDid w.kernel stage)

end

theorem runProgramDeep {w : World} {cpu : Nat} (deep : ¬ w.kernel.tailDepth cpu < tailCallDepthMax)
    (skops : SockOps) (slot : Nat) (o : Outside) : (w.runProgram cpu skops slot o).1 = w.goOn cpu none := by
  have none_ := enterNone deep
  unfold World.runProgram
  split
  · unfold World.kernel at none_
    rw [routeManager, none_]
    rfl
  · split
    · rw [World.policy, none_]
    · split
      · rw [connectionRelay, none_]
        rfl
      · split
        · rw [World.metrics, none_]
        · rfl

theorem routeShallow {w : World} {cpu : Nat} (shallow : w.kernel.tailDepth cpu < tailCallDepthMax) :
    routeManager w.routing cpu = ((w.route cpu).routing, .tailCall progLbPolicy) := by
  have some_ := enterSome shallow
  unfold World.kernel at some_
  rw [routeManager, some_]
  rfl

theorem relayUnspliceable {w : World} {cpu : Nat} (shallow : w.kernel.tailDepth cpu < tailCallDepthMax)
    (none_ : w.selected cpu = 0 ∨ w.kernel.redirectHash (w.selected cpu) < 0) :
    connectionRelay w.kernel cpu = (w.kernel.deeper cpu, .pass) := by
  by_cases zero : w.selected cpu = 0
  · rw [connectionRelay, enterSome shallow]
    exact if_pos zero
  · have negative := none_.resolve_left zero
    rw [relayShallow shallow rfl zero, relay]
    have failed : (w.kernel.deeper cpu).redirectHash (w.selected cpu) ≠ skPass := fun is =>
      absurd (is ▸ negative) (by decide)
    change w.kernel.redirectHash (w.selected cpu) < 0 at negative
    change (w.kernel.deeper cpu).redirectHash (w.selected cpu) < 0 at negative
    unfold World.selected at failed negative
    simp only [if_neg failed, if_pos negative]

theorem relayFound {w : World} {cpu : Nat} (shallow : w.kernel.tailDepth cpu < tailCallDepthMax)
    (nonzero : w.selected cpu ≠ 0) (found : ¬ w.kernel.redirectHash (w.selected cpu) < 0) :
    connectionRelay w.kernel cpu = ((w.splice cpu).kernel, .tailCall progMetrics) := by
  rw [relayShallow shallow rfl nonzero]
  unfold World.splice
  by_cases spliced : w.kernel.redirectHash (w.selected cpu) = skPass
  · rw [if_pos spliced]
    exact relaySpliced cpu spliced
  · rw [if_neg spliced]
    change relay (w.kernel.deeper cpu) (w.selected cpu) = (w.kernel.deeper cpu, .tailCall progMetrics)
    have kept : (w.kernel.deeper cpu).redirectHash = w.kernel.redirectHash := rfl
    simp only [relay, kept, if_neg spliced, if_neg found]

section
variable (w : World) (cpu : Nat) (skops : SockOps) (o : Outside)
  (shallow : w.kernel.tailDepth cpu < tailCallDepthMax)
include shallow

theorem routeAdvanced : Advanced w cpu skops o (.program progRouteManager)
    (w.runProgram cpu skops progRouteManager o).1 (w.runProgram cpu skops progRouteManager o).2 := by
  have cluster : ((w.route cpu).routing.scratchMap cpu).clusterId =
      matchedCluster w.routing (w.routing.scratchMap cpu) := by
    simp [World.route]
  rw [World.runProgram, if_pos rfl, routeShallow shallow]
  dsimp only
  rw [cluster]
  exact .routed shallow

theorem policyAdvanced : Advanced w cpu skops o (.program progLbPolicy)
    (w.runProgram cpu skops progLbPolicy o).1 (w.runProgram cpu skops progLbPolicy o).2 := by
  have starts : startWalk (w.kernel.deeper cpu) skops.flow = startWalk w.kernel skops.flow := rfl
  rw [World.runProgram, if_neg (by decide), if_pos rfl, World.policy, enterSome shallow]
  dsimp only
  rw [starts, startWalk]
  by_cases empty : w.kernel.ringMeta.size = 0
  · rw [if_pos empty]
    exact .ringless shallow empty
  · rw [if_neg empty]
    exact .searched shallow empty

theorem relayAdvanced : Advanced w cpu skops o (.program progConnRelay)
    (w.runProgram cpu skops progConnRelay o).1 (w.runProgram cpu skops progConnRelay o).2 := by
  rw [World.runProgram, if_neg (by decide), if_neg (by decide), if_pos rfl]
  by_cases none_ : w.selected cpu = 0 ∨ w.kernel.redirectHash (w.selected cpu) < 0
  · rw [relayUnspliceable shallow none_]
    exact .unspliced shallow none_
  · obtain ⟨nonzero, found⟩ := not_or.mp none_
    have kept : ((w.splice cpu).kernel.selection cpu).instanceId = w.selected cpu ∧
        w.withKernel (w.splice cpu).kernel = w.splice cpu := by
      unfold World.splice
      dsimp only
      split <;> exact ⟨rfl, rfl⟩
    rw [relayFound shallow nonzero found]
    dsimp only
    rw [kept.1, kept.2, if_neg nofun]
    exact .relayed shallow nonzero found

theorem metricsAdvanced : Advanced w cpu skops o (.program progMetrics)
    (w.runProgram cpu skops progMetrics o).1 (w.runProgram cpu skops progMetrics o).2 := by
  have selected : ((w.kernel.deeper cpu).selection cpu).instanceId = w.selected cpu := rfl
  have stats : (w.kernel.deeper cpu).instanceStats = w.kernel.instanceStats := rfl
  rw [World.runProgram, if_neg (by decide), if_neg (by decide), if_neg (by decide), if_pos rfl, World.metrics,
    enterSome shallow]
  dsimp only
  rw [selected]
  by_cases zero : w.selected cpu = 0
  · rw [if_pos zero]
    exact .unmeasured shallow zero
  · rw [if_neg zero, lookUp, stats]
    dsimp only
    cases found : w.kernel.instanceStats.lookup (w.selected cpu) with
    | none => exact .missed shallow zero found
    | some slots => exact .accounted shallow zero found

theorem runProgramAdvanced (slot : Nat) : Advanced w cpu skops o (.program slot)
    (w.runProgram cpu skops slot o).1 (w.runProgram cpu skops slot o).2 := by
  by_cases filled : slot ∈ [progRouteManager, progLbPolicy, progConnRelay, progMetrics]
  · simp only [List.mem_cons, List.not_mem_nil, or_false] at filled
    rcases filled with rfl | rfl | rfl | rfl
    · exact routeAdvanced w cpu skops o shallow
    · exact policyAdvanced w cpu skops o shallow
    · exact relayAdvanced w cpu skops o shallow
    · exact metricsAdvanced w cpu skops o shallow
  · have empty := filled
    simp only [List.mem_cons, List.not_mem_nil, or_false, not_or] at filled
    rw [World.runProgram, if_neg filled.1, if_neg filled.2.1, if_neg filled.2.2.1, if_neg filled.2.2.2]
    exact .stopped (.inr empty)

end

theorem advanceAdvanced (w : World) (cpu : Nat) (chain : Chain) (o : Outside) :
    Advanced w cpu chain.skops o chain.point (w.advance cpu chain o).1 (w.advance cpu chain o).2 := by
  obtain ⟨skops, point⟩ := chain
  cases point with
  | limiting =>
    dsimp only [World.advance]
    split
    · exact .unlimited ‹_›
    · rename_i cur read
      split
      · exact .overdrawn read ‹_›
      · exact .admitted read (Int.not_le.mp ‹_›)
  | refusing =>
    dsimp only [World.advance]
    split
    · exact .refunded ‹_›
    · exact .dropped ‹_›
  | counting =>
    dsimp only [World.advance]
    split
    · exact .unseen ‹_›
    · exact .counted ‹_›
  | inserting => exact .inserted
  | program slot =>
    dsimp only [World.advance]
    split
    · rename_i deep
      have below := UInt32.not_lt.mpr deep
      rw [runProgramDeep below]
      exact .stopped (.inl below)
    · rename_i shallow
      exact runProgramAdvanced w cpu skops o (UInt32.not_le.mp shallow) slot
  | walking walk =>
    dsimp only [World.advance]
    cases look : walk.look w.kernel with
    | still next => exact .looked look
    | missed => exact .unrouted look
    | chosen id be => exact .chosen look
  | choosing id be =>
    dsimp only [World.advance, World.choose]
    by_cases zero : id = 0
    · subst zero
      exact .pickedZero
    · rw [if_neg zero]
      exact .picked zero
  | measuring stage => exact .measured stage

theorem stepsSend {w next : World} {cpu : Nat} {skops : SockOps} {mark : Mark}
    (step : Steps w (.send cpu skops, mark) next) : w.running cpu = none ∧
      (mark = ⟨cpu, skops, .entered, none⟩ ∧
          next = (w.filterManager cpu skops).goOn cpu (some ⟨skops, .limiting⟩) ∨
        mark = ⟨cpu, skops, .ignored, none⟩ ∧ next = w) := by
  unfold Steps at step
  dsimp only [World.exec] at step
  split at step
  · cases step
  · rename_i idle
    split at step <;> cases step
    · exact ⟨idle, .inl ⟨rfl, rfl⟩⟩
    · exact ⟨idle, .inr ⟨rfl, rfl⟩⟩

theorem stepsGo {w next : World} {cpu : Nat} {o : Outside} {mark : Mark}
    (step : Steps w (.go cpu o, mark) next) : ∃ skops point did, w.running cpu = some ⟨skops, point⟩ ∧
      mark = ⟨cpu, skops, did, did.calls.map next.kernel.progArray⟩ ∧ Advanced w cpu skops o point next did := by
  unfold Steps at step
  dsimp only [World.exec] at step
  split at step
  · cases step
  · rename_i chain busy
    cases step
    exact ⟨chain.skops, chain.point, _, busy, rfl, advanceAdvanced w cpu chain o⟩

theorem stepsControl {w next : World} {c : Control} {mark : Mark} (step : Steps w (.control c, mark) next) :
    mark = ⟨none, noSkops, .written, none⟩ ∧ next = w.control c := by
  cases Option.some.inj step
  exact ⟨rfl, rfl⟩

/-! ### What the pieces of a step leave -/

section
variable (w : World) (cpu : Nat)

@[simp] theorem kernelGoOn (chain : Option Chain) : (w.goOn cpu chain).kernel = w.kernel := rfl

@[simp] theorem runningGoOn (chain : Option Chain) :
    (w.goOn cpu chain).running = Function.update w.running cpu chain := rfl

@[simp] theorem kernelFollow (skops : SockOps) (verdict : Verdict) :
    (w.follow cpu skops verdict).kernel = w.kernel := by
  cases verdict <;> rfl

@[simp] theorem runningFollow (skops : SockOps) (slot : Nat) :
    (w.follow cpu skops (.tailCall slot)).running = Function.update w.running cpu
      (if w.kernel.progArray slot then some ⟨skops, .program slot⟩ else none) := rfl

@[simp] theorem kernelWith (kernel : Kernel) : (w.withKernel kernel).kernel = kernel := rfl

@[simp] theorem runningWith (kernel : Kernel) : (w.withKernel kernel).running = w.running := rfl

@[simp] theorem kernelTokens (serviceId : UInt32) (tokens : Int) :
    (w.setTokens serviceId tokens).kernel = w.kernel := rfl

@[simp] theorem runningTokens (serviceId : UInt32) (tokens : Int) :
    (w.setTokens serviceId tokens).running = w.running := rfl

@[simp] theorem kernelDeeper : (w.deeper cpu).kernel = w.kernel.deeper cpu := rfl

@[simp] theorem runningDeeper : (w.deeper cpu).running = w.running := rfl

@[simp] theorem kernelRoute : (w.route cpu).kernel = w.kernel.deeper cpu := rfl

@[simp] theorem runningRoute : (w.route cpu).running = w.running := rfl

@[simp] theorem runningBook (o : Outside) (slots : Nat → InstanceStats) :
    (w.book cpu o slots).running = w.running := rfl

@[simp] theorem depthBook (o : Outside) (slots : Nat → InstanceStats) :
    (w.book cpu o slots).kernel.tailDepth = (w.kernel.deeper cpu).tailDepth := rfl

@[simp] theorem selectionBook (o : Outside) (slots : Nat → InstanceStats) :
    (w.book cpu o slots).kernel.selection = w.kernel.selection := rfl

@[simp] theorem runningSplice : (w.splice cpu).running = w.running := by
  unfold World.splice
  dsimp only
  split <;> rfl

@[simp] theorem depthSplice : (w.splice cpu).kernel.tailDepth = (w.kernel.deeper cpu).tailDepth := by
  unfold World.splice
  dsimp only
  split <;> rfl

@[simp] theorem selectionSplice : (w.splice cpu).kernel.selection = w.kernel.selection := by
  unfold World.splice
  dsimp only
  split <;> rfl

@[simp] theorem depthPick (k : Kernel) (id : UInt32) (be : BackendEntry) : (pick k cpu id be).tailDepth = k.tailDepth :=
  rfl

@[simp] theorem selectionPick (k : Kernel) (id : UInt32) (be : BackendEntry) :
    (pick k cpu id be).selection = Function.update k.selection cpu ⟨id, be.ip, be.port⟩ := rfl

@[simp] theorem depthStage (k : Kernel) (reserved : Bool) (stage : Stage) :
    (stage.step k cpu reserved).1.tailDepth = k.tailDepth := by
  rw [(stepKeeps k cpu reserved stage).same]

@[simp] theorem selectionStage (k : Kernel) (reserved : Bool) (stage : Stage) :
    (stage.step k cpu reserved).1.selection = k.selection := by
  rw [(stepKeeps k cpu reserved stage).same]

end

end OmegaLb.DataPlane
