import OmegaLb.RelayChain

/-! metrics_collector.bpf.c past its guard, one access to a shared map after the other. What a CPU has in
its own slot no other one writes. -/
namespace OmegaLb.MetricsSteps
open CircuitBreaker (circuitTripThreshold)
open KernelMaps RelayChain

/-- The selection and what was read of the clock and the message. -/
structure Seen where
  id : UInt32
  now : UInt64
  isError : Bool
  deriving DecidableEq, Repr

/-- What comes next: the insertion after a lookup that missed, the circuit's lookup, the write that
closes it, the sample. -/
inductive Stage where
  | creating (s : Seen)
  | judging (s : Seen) (stats : InstanceStats)
  | closing (s : Seen) (latencyNs : UInt64)
  | emitting (s : Seen) (latencyNs : UInt64)
  deriving DecidableEq, Repr

/-- bpf_map_update_elem with BPF_NOEXIST, by a program that does not look at what it returns. -/
def updateNoExist {V : Type} (m : GoMap UInt32 V) (key : UInt32) (value : V) : GoMap UInt32 V :=
  if key ∈ m then m else updateElem m key value

def newSlots (cpu : Nat) (now : UInt64) : Nat → InstanceStats :=
  Function.update (fun _ => {}) cpu { totalRequests := 1, lastReqTsNs := now }

/-- The CPU's slot with the request in it. -/
def booked (slots : Nat → InstanceStats) (cpu : Nat) (s : Seen) : InstanceStats :=
  judged (sampled (slots cpu) s.now) s.isError

/-- The lookup, and the updates of the slot found. -/
def lookUp (k : Kernel) (cpu : Nat) (s : Seen) : Kernel × Stage :=
  match k.instanceStats.lookup s.id with
  | none => (k, .creating s)
  | some slots =>
    let stats := booked slots cpu s
    ({ k with instanceStats := k.instanceStats.insert s.id (Function.update slots cpu stats) }, .judging s stats)

def Stage.step (k : Kernel) (cpu : Nat) (reserved : Bool) : Stage → Kernel × Option Stage
  | .creating s =>
    ({ k with instanceStats := updateNoExist k.instanceStats s.id (newSlots cpu s.now) }, some (.emitting s 0))
  | .judging s stats =>
    if s.isError then
      let circuitState :=
        if stats.consecutiveErrors ≥ circuitTripThreshold then updateElem k.circuitState s.id circuitOpen
        else k.circuitState
      ({ k with circuitState := circuitState }, some (.emitting s stats.ewmaLatencyNs))
    else if k.circuitState.lookup s.id = some circuitClosed then (k, some (.emitting s stats.ewmaLatencyNs))
    else (k, some (.closing s stats.ewmaLatencyNs))
  | .closing s latencyNs =>
    ({ k with circuitState := updateElem k.circuitState s.id circuitClosed }, some (.emitting s latencyNs))
  | .emitting s latencyNs => (emit k s.id latencyNs ⟨s.now, s.isError, reserved⟩, none)

/-! ### Undisturbed -/

def undisturbed (k : Kernel) (cpu : Nat) (reserved : Bool) : Nat → Stage → Kernel
  | 0, _ => k
  | steps + 1, stage =>
    match stage.step k cpu reserved with
    | (k, none) => k
    | (k, some next) => undisturbed k cpu reserved steps next

theorem missingOutside {V : Type} {m : GoMap UInt32 V} {key : UInt32} (missing : m.lookup key = none) : key ∉ m :=
  AList.lookup_eq_none.mp missing

/-- Nothing written meanwhile, the steps leave what the program taken at once does. -/
theorem stagesUndisturbed (k : Kernel) (cpu : Nat) (id : UInt32) (o : Reading) :
    undisturbed (lookUp k cpu ⟨id, o.now, o.isError⟩).1 cpu o.reserved 3 (lookUp k cpu ⟨id, o.now, o.isError⟩).2 =
      account k cpu id o := by
  obtain ⟨now, isError, reserved⟩ := o
  unfold lookUp account booked
  dsimp only
  cases found : k.instanceStats.lookup id with
  | none =>
    simp only [undisturbed, Stage.step, updateNoExist, if_neg (missingOutside found), newSlots]
  | some slots =>
    dsimp only
    generalize judged (sampled (slots cpu) now) isError = stats
    cases isError with
    | true => simp only [undisturbed, Stage.step, writeCircuit, if_true]
    | false =>
      by_cases closed : k.circuitState.lookup id = some circuitClosed
      · simp [undisturbed, Stage.step, writeCircuit, closed]
      · simp [undisturbed, Stage.step, writeCircuit, closed]

/-! ### What a step keeps -/

/-- The maps that metrics_collector writes. -/
structure Keeps (k next : Kernel) : Prop where
  same : next = { k with
    instanceStats := next.instanceStats, circuitState := next.circuitState, events := next.events }

theorem stepKeeps (k : Kernel) (cpu : Nat) (reserved : Bool) (stage : Stage) : Keeps k (stage.step k cpu reserved).1 := by
  cases stage with
  | creating s => exact ⟨rfl⟩
  | judging s stats =>
    rw [Stage.step]
    split
    · exact ⟨rfl⟩
    · split <;> exact ⟨rfl⟩
  | closing s latencyNs => exact ⟨rfl⟩
  | emitting s latencyNs =>
    rw [Stage.step, emit]
    split <;> exact ⟨rfl⟩

end OmegaLb.MetricsSteps
