import OmegaLb.LbPolicy
import OmegaLb.CircuitBreaker

/-! The programs behind lb_policy, connection_relay.bpf.c and metrics_collector.bpf.c, and the
chain of tail calls from a flow to its statistics. -/
namespace OmegaLb.RelayChain
open KernelMaps LbPolicy
open Reconcile (BackendEntry)
open CircuitBreaker (circuitTripThreshold)

def skPass : Int := 1

/-! ### connection_relay -/

def relay (k : Kernel) (id : UInt32) : Kernel × Verdict :=
  let ret := k.redirectHash id
  let k := if ret = skPass then { k with relayed := k.relayed ++ [id] } else k
  if ret < 0 then (k, .pass) else (k, .tailCall progMetrics)

def connectionRelay (k : Kernel) (cpu : Nat) : Kernel × Verdict :=
  match k.enter cpu with
  | none => (k, .pass)
  | some k =>
    let id := (k.selection cpu).instanceId
    if id = 0 then (k, .pass) else relay k id

/-! ### metrics_collector -/

/-- What a run of metrics_collector reads besides the maps. The source has 0 for `isError` until
it is read from the message; `reserved` says whether the ring buffer has room. -/
structure Reading where
  now : UInt64
  isError : Bool
  reserved : Bool
  deriving DecidableEq, Repr

def sampled (s : InstanceStats) (now : UInt64) : InstanceStats :=
  { s with
    totalRequests := s.totalRequests + 1
    ewmaLatencyNs := (s.ewmaLatencyNs * 7 + (now - s.lastReqTsNs)) >>> 3
    lastReqTsNs := now }

def judged (s : InstanceStats) (isError : Bool) : InstanceStats :=
  if isError then
    { s with totalErrors := s.totalErrors + 1, consecutiveErrors := s.consecutiveErrors + 1 }
  else { s with consecutiveErrors := 0 }

def writeCircuit (circuits : GoMap UInt32 UInt32) (id : UInt32) (s : InstanceStats) (isError : Bool) :
    GoMap UInt32 UInt32 :=
  if isError then
    if s.consecutiveErrors ≥ circuitTripThreshold then updateElem circuits id circuitOpen else circuits
  else if circuits.lookup id = some circuitClosed then circuits
  else updateElem circuits id circuitClosed

def emit (k : Kernel) (id : UInt32) (latencyNs : UInt64) (o : Reading) : Kernel :=
  if o.reserved then
    { k with events := k.events ++ [{
        instanceId := id
        latencyNs := latencyNs
        error := if o.isError then 1 else 0
        circuitState := (k.circuitState.lookup id).getD circuitClosed
        timestampNs := o.now }] }
  else k

def account (k : Kernel) (cpu : Nat) (id : UInt32) (o : Reading) : Kernel :=
  match k.instanceStats.lookup id with
  | none =>
    let newStats : InstanceStats := { totalRequests := 1, lastReqTsNs := o.now }
    let slots := Function.update (fun _ => ({} : InstanceStats)) cpu newStats
    emit { k with instanceStats := updateElem k.instanceStats id slots } id 0 o
  | some slots =>
    let stats := judged (sampled (slots cpu) o.now) o.isError
    emit { k with
      instanceStats := k.instanceStats.insert id (Function.update slots cpu stats)
      circuitState := writeCircuit k.circuitState id stats o.isError } id stats.ewmaLatencyNs o

def metricsCollector (k : Kernel) (cpu : Nat) (o : Reading) : Kernel :=
  match k.enter cpu with
  | none => k
  | some k =>
    let id := (k.selection cpu).instanceId
    if id = 0 then k else account k cpu id o

/-! ### The chain -/

def relayed (k : Kernel) (cpu : Nat) (o : Reading) : Kernel :=
  let (k, verdict) := connectionRelay k cpu
  k.tailCall verdict fun k => metricsCollector k cpu o

def chain (k : Kernel) (cpu : Nat) (flow : Flow) (o : Reading) : Kernel :=
  let (k, verdict) := lbPolicy k cpu flow
  k.tailCall verdict fun k => relayed k cpu o

def requests (k : Kernel) (cpu : Nat) (id : UInt32) : UInt64 :=
  match k.instanceStats.lookup id with
  | none => 0
  | some slots => (slots cpu).totalRequests

def Relays (k next : Kernel) (id : UInt32) : Prop := next.relayed = k.relayed ++ [id]

def Accounts (k next : Kernel) (cpu : Nat) (id : UInt32) : Prop :=
  requests next cpu id = requests k cpu id + 1

/-- Nothing the chain needs is missing: room below the depth limit for two more programs, both
of them loaded, an i-sock of the instance, and its statistics or room for them. -/
structure Available (k : Kernel) (cpu : Nat) (id : UInt32) : Prop where
  shallow : k.tailDepth cpu + 1 < tailCallDepthMax ∧ k.tailDepth cpu + 2 < tailCallDepthMax
  relay : k.progArray progConnRelay = true
  spliced : k.redirectHash id = skPass
  metrics : k.progArray progMetrics = true
  stats : Fits k.instanceStats id

theorem notRelays {k next : Kernel} {id : UInt32} (same : next.relayed = k.relayed) :
    ¬ Relays k next id := by
  intro relays
  have lengths := congrArg List.length (same.symm.trans relays)
  rw [List.length_append, List.length_singleton] at lengths
  omega

theorem notAccounts {k next : Kernel} {cpu : Nat} {id : UInt32}
    (same : requests next cpu id = requests k cpu id) : ¬ Accounts k next cpu id := by
  intro accounts
  have counts := same.symm.trans accounts
  grind

theorem emitKeeps (k : Kernel) (id : UInt32) (latencyNs : UInt64) (o : Reading) :
    (emit k id latencyNs o).instanceStats = k.instanceStats ∧
      (emit k id latencyNs o).relayed = k.relayed ∧
      (emit k id latencyNs o).circuitState = k.circuitState := by
  unfold emit
  split <;> exact ⟨rfl, rfl, rfl⟩

theorem judgedRequests (s : InstanceStats) (now : UInt64) (isError : Bool) :
    (judged (sampled s now) isError).totalRequests = s.totalRequests + 1 := by
  unfold judged
  split <;> rfl

theorem accountRequests (k : Kernel) (cpu : Nat) (id : UInt32) (o : Reading) :
    Accounts k (account k cpu id o) cpu id ↔ Fits k.instanceStats id := by
  unfold Accounts requests account
  cases found : k.instanceStats.lookup id with
  | none =>
    dsimp only
    rw [(emitKeeps ..).1]
    dsimp only
    rw [updateElemNew found]
    by_cases room : Fits k.instanceStats id
    · rw [if_pos room]
      refine iff_of_true ?_ room
      dsimp only
      rw [Function.update_self]
      rfl
    · rw [if_neg room]
      refine iff_of_false ?_ room
      dsimp only
      decide
  | some slots =>
    refine iff_of_true ?_ (fitsFound found)
    dsimp only
    rw [(emitKeeps ..).1]
    dsimp only
    rw [AList.lookup_insert]
    dsimp only
    rw [Function.update_self, judgedRequests]

theorem accountRelayed (k : Kernel) (cpu : Nat) (id : UInt32) (o : Reading) :
    (account k cpu id o).relayed = k.relayed := by
  unfold account
  split <;> exact (emitKeeps ..).2.1

theorem metricsShallow {k : Kernel} {cpu : Nat} {id : UInt32} (o : Reading)
    (shallow : k.tailDepth cpu < tailCallDepthMax) (selected : (k.selection cpu).instanceId = id)
    (nonzero : id ≠ 0) : metricsCollector k cpu o = account (k.deeper cpu) cpu id o := by
  subst selected
  rw [metricsCollector, enterSome shallow]
  exact if_neg nonzero

theorem metricsDeep {k : Kernel} {cpu : Nat} (o : Reading) (deep : ¬ k.tailDepth cpu < tailCallDepthMax) :
    metricsCollector k cpu o = k := by
  rw [metricsCollector, enterNone deep]

theorem metricsRelayed (k : Kernel) (cpu : Nat) (o : Reading) :
    (metricsCollector k cpu o).relayed = k.relayed := by
  by_cases shallow : k.tailDepth cpu < tailCallDepthMax
  · by_cases zero : (k.selection cpu).instanceId = 0
    · rw [metricsCollector, enterSome shallow]
      dsimp only
      rw [if_pos (show ((k.deeper cpu).selection cpu).instanceId = 0 from zero)]
      rfl
    · rw [metricsShallow o shallow rfl zero, accountRelayed]
      rfl
  · rw [metricsDeep o shallow]

theorem relayShallow {k : Kernel} {cpu : Nat} {id : UInt32}
    (shallow : k.tailDepth cpu < tailCallDepthMax) (selected : (k.selection cpu).instanceId = id)
    (nonzero : id ≠ 0) : connectionRelay k cpu = relay (k.deeper cpu) id := by
  subst selected
  rw [connectionRelay, enterSome shallow]
  exact if_neg nonzero

theorem tailCallRelayed {k : Kernel} (verdict : Verdict) {next : Kernel → Kernel}
    (same : (next k).relayed = k.relayed) : (k.tailCall verdict next).relayed = k.relayed := by
  unfold Kernel.tailCall
  split
  · rfl
  · split
    · exact same
    · rfl

def splicedTo (k : Kernel) (cpu : Nat) (id : UInt32) : Kernel :=
  { k.deeper cpu with relayed := k.relayed ++ [id] }

theorem relaySpliced {k : Kernel} {id : UInt32} (cpu : Nat) (spliced : k.redirectHash id = skPass) :
    relay (k.deeper cpu) id = (splicedTo k cpu id, .tailCall progMetrics) := by
  have positive : ¬ skPass < 0 := by decide
  simp only [relay, splicedTo, Kernel.deeper, spliced, if_true, if_neg positive]

theorem relayUnspliced {k : Kernel} {id : UInt32} (cpu : Nat) (failed : k.redirectHash id ≠ skPass) :
    (relay (k.deeper cpu) id).1 = k.deeper cpu := by
  simp only [relay, Kernel.deeper, failed, if_false]
  split <;> rfl

theorem splicedExact {k : Kernel} {cpu : Nat} {id : UInt32} (o : Reading)
    (selected : (k.selection cpu).instanceId = id) (nonzero : id ≠ 0) :
    Accounts k (metricsCollector (splicedTo k cpu id) cpu o) cpu id ↔
      k.tailDepth cpu + 1 < tailCallDepthMax ∧ Fits k.instanceStats id := by
  have depth : (splicedTo k cpu id).tailDepth cpu = k.tailDepth cpu + 1 := Function.update_self ..
  by_cases shallow : k.tailDepth cpu + 1 < tailCallDepthMax
  · have called : metricsCollector (splicedTo k cpu id) cpu o =
        account ((splicedTo k cpu id).deeper cpu) cpu id o :=
      metricsShallow o (by rwa [depth]) selected nonzero
    rw [called, and_iff_right shallow]
    exact accountRequests ((splicedTo k cpu id).deeper cpu) cpu id o
  · have stopped : metricsCollector (splicedTo k cpu id) cpu o = splicedTo k cpu id :=
      metricsDeep o (by rwa [depth])
    rw [stopped]
    exact iff_of_false (notAccounts rfl) fun both => shallow both.1

theorem relayedExact {k : Kernel} {cpu : Nat} {id : UInt32} (o : Reading)
    (selected : (k.selection cpu).instanceId = id) (nonzero : id ≠ 0) :
    Relays k (relayed k cpu o) id ∧ Accounts k (relayed k cpu o) cpu id ↔
      (k.tailDepth cpu < tailCallDepthMax ∧ k.tailDepth cpu + 1 < tailCallDepthMax) ∧
        k.redirectHash id = skPass ∧ k.progArray progMetrics = true ∧ Fits k.instanceStats id := by
  by_cases shallow : k.tailDepth cpu < tailCallDepthMax
  · have ran : relayed k cpu o = (relay (k.deeper cpu) id).1.tailCall (relay (k.deeper cpu) id).2
        fun k => metricsCollector k cpu o := by
      rw [relayed, relayShallow shallow selected nonzero]
    by_cases spliced : k.redirectHash id = skPass
    · rw [ran, relaySpliced cpu spliced]
      by_cases metrics : k.progArray progMetrics = true
      · have called : (splicedTo k cpu id).tailCall (.tailCall progMetrics)
            (fun k => metricsCollector k cpu o) = metricsCollector (splicedTo k cpu id) cpu o :=
          if_pos metrics
        have relays : Relays k (metricsCollector (splicedTo k cpu id) cpu o) id :=
          metricsRelayed (splicedTo k cpu id) cpu o
        rw [called, and_iff_right relays, splicedExact o selected nonzero]
        simp only [shallow, spliced, metrics, true_and]
      · have missing : (splicedTo k cpu id).tailCall (.tailCall progMetrics)
            (fun k => metricsCollector k cpu o) = splicedTo k cpu id := if_neg metrics
        rw [missing]
        exact iff_of_false (fun both => notAccounts rfl both.2) fun all => metrics all.2.2.1
    · have quiet : (relayed k cpu o).relayed = k.relayed := by
        rw [ran, relayUnspliced cpu spliced, tailCallRelayed _ (metricsRelayed ..)]
        rfl
      exact iff_of_false (fun both => notRelays quiet both.1) fun all => spliced all.2.1
  · have quiet : (relayed k cpu o).relayed = k.relayed := by
      rw [relayed, connectionRelay, enterNone shallow]
      rfl
    exact iff_of_false (fun both => notRelays quiet both.1) fun all => shallow all.1.1

/-- A pick of 0 ends with lb_policy, after it has counted the request. -/
theorem chainZero {k : Kernel} {cpu : Nat} {flow : Flow} {be : BackendEntry} (o : Reading)
    (picks : Picks k cpu flow 0 be) : chain k cpu flow o = choose (k.deeper cpu) cpu 0 be := by
  rw [chain, lbPolicyPicks picks]
  rfl

theorem chainExact {k : Kernel} {cpu : Nat} {flow : Flow} {id : UInt32} {be : BackendEntry}
    (o : Reading) (picked : Picked k (lbPolicy k cpu flow).1 cpu id be) :
    Relays k (chain k cpu flow o) id ∧ Accounts k (chain k cpu flow o) cpu id ↔
      id ≠ 0 ∧ Available k cpu id := by
  have picks := pickedExact.mp picked
  have policy := lbPolicyPicks picks
  by_cases zero : id = 0
  · subst zero
    have stopped : (chain k cpu flow o).relayed = k.relayed := by
      rw [chainZero o picks]
      rfl
    exact iff_of_false (fun both => notRelays stopped both.1) fun all => all.1 rfl
  · by_cases loaded : k.progArray progConnRelay = true
    · have called : chain k cpu flow o = relayed (choose (k.deeper cpu) cpu id be) cpu o := by
        rw [chain, policy]
        dsimp only
        rw [if_neg zero]
        exact if_pos loaded
      have selected : ((choose (k.deeper cpu) cpu id be).selection cpu).instanceId = id := by
        dsimp only [choose]
        rw [Function.update_self]
      have depth : (choose (k.deeper cpu) cpu id be).tailDepth cpu = k.tailDepth cpu + 1 :=
        Function.update_self ..
      have further := relayedExact o selected zero
      rw [depth, UInt32.add_assoc] at further
      rw [called]
      refine further.trans ⟨fun ⟨shallow, spliced, metrics, stats⟩ => ?_, fun ⟨_, available⟩ => ?_⟩
      · exact ⟨zero, shallow, loaded, spliced, metrics, stats⟩
      · exact ⟨available.shallow, available.spliced, available.metrics, available.stats⟩
    · have stopped : (chain k cpu flow o).relayed = k.relayed := by
        rw [chain, policy]
        dsimp only
        rw [if_neg zero]
        refine (congrArg Kernel.relayed ?_).trans (rfl : (choose (k.deeper cpu) cpu id be).relayed = _)
        exact if_neg loaded
      exact iff_of_false (fun both => notRelays stopped both.1) fun all => loaded all.2.relay

end OmegaLb.RelayChain
