import OmegaLb.Maglev
import OmegaLb.Reconcile

/-! The eBPF maps that lb_policy, connection_relay and metrics_collector share. A lookup in an
array map never fails, so the tests for its null pointer have no counterpart. -/
namespace OmegaLb.KernelMaps
open Maglev (MaglevTable)
open Reconcile (BackendEntry)

def circuitClosed : UInt32 := 0
def circuitOpen : UInt32 := 1
def circuitHalfOpen : UInt32 := 2

def tailCallDepthMax : UInt32 := 30

def progConnRelay : Nat := 3
def progMetrics : Nat := 4

structure RingMeta where
  size : UInt32
  sortedKeys : Fin 65536 → UInt32

/-- sorted_keys at an index masked with 0xFFFF. -/
def RingMeta.key (ring : RingMeta) (i : Nat) : UInt32 := ring.sortedKeys (Fin.ofNat 65536 i)

structure SelectionResult where
  instanceId : UInt32
  backendIp : Vector UInt8 4
  backendPort : UInt16
  deriving DecidableEq, Repr

structure InstanceStats where
  totalRequests : UInt64 := 0
  totalErrors : UInt64 := 0
  ewmaLatencyNs : UInt64 := 0
  lastReqTsNs : UInt64 := 0
  consecutiveErrors : UInt32 := 0
  deriving DecidableEq, Repr

structure EventSample where
  instanceId : UInt32
  latencyNs : UInt64
  error : UInt32
  circuitState : UInt32
  vnodesAtSelect : UInt32 := 0
  probeIdx : UInt8 := 0
  reason : UInt8 := 0
  pad : UInt16 := 0
  timestampNs : UInt64
  deriving DecidableEq, Repr

/-- A per-CPU map holds a value for every CPU. `progArray` says which tail calls go through and
`redirectHash` what bpf_msg_redirect_hash on isock_pool returns for a key; `relayed` lists the
keys it has spliced to. -/
structure Kernel where
  ringMeta : RingMeta
  haRing : GoMap UInt32 UInt32
  maglevTable : MaglevTable
  instanceRegistry : GoMap UInt32 BackendEntry
  circuitState : GoMap UInt32 UInt32
  instanceStats : GoMap UInt32 (Nat → InstanceStats)
  selection : Nat → SelectionResult
  tailDepth : Nat → UInt32
  progArray : Nat → Bool
  redirectHash : UInt32 → Int
  relayed : List UInt32
  events : List EventSample

/-- How a program ends: with SK_PASS, or with a tail call (and SK_PASS if that fails). -/
inductive Verdict where
  | pass
  | tailCall (slot : Nat)
  deriving DecidableEq, Repr

def Kernel.deeper (k : Kernel) (cpu : Nat) : Kernel :=
  { k with tailDepth := Function.update k.tailDepth cpu (k.tailDepth cpu + 1) }

/-- The guard every program of the chain starts with. -/
def Kernel.enter (k : Kernel) (cpu : Nat) : Option Kernel :=
  if k.tailDepth cpu ≥ tailCallDepthMax then none else some (k.deeper cpu)

def Kernel.tailCall (k : Kernel) (verdict : Verdict) (next : Kernel → Kernel) : Kernel :=
  match verdict with
  | .pass => k
  | .tailCall slot => if k.progArray slot then next k else k

theorem enterSome {k : Kernel} {cpu : Nat} (below : k.tailDepth cpu < tailCallDepthMax) :
    k.enter cpu = some (k.deeper cpu) := if_neg (UInt32.not_le.mpr below)

theorem enterNone {k : Kernel} {cpu : Nat} (deep : ¬ k.tailDepth cpu < tailCallDepthMax) :
    k.enter cpu = none := if_pos (UInt32.not_lt.mp deep)

/-! ### Hashes -/

section
variable {V : Type}

/-- A hash of 8192 entries takes a key it has, or a new one while there is room. -/
def Fits (m : GoMap UInt32 V) (key : UInt32) : Prop := key ∈ m ∨ m.entries.length < 8192

instance (m : GoMap UInt32 V) (key : UInt32) : Decidable (Fits m key) :=
  inferInstanceAs (Decidable (_ ∨ _))

/-- bpf_map_update_elem by a program that does not look at what it returns. -/
def updateElem (m : GoMap UInt32 V) (key : UInt32) (value : V) : GoMap UInt32 V :=
  if Fits m key then m.insert key value else m

theorem fitsFound {m : GoMap UInt32 V} {key : UInt32} {value : V} (found : m.lookup key = some value) :
    Fits m key := .inl (AList.lookup_isSome.mp (by rw [found]; rfl))

theorem updateElemNew {m : GoMap UInt32 V} {key : UInt32} {value : V}
    (missing : m.lookup key = none) :
    (updateElem m key value).lookup key = if Fits m key then some value else none := by
  unfold updateElem
  split
  · exact AList.lookup_insert m
  · exact missing

end

/-! ### Kernels with all programs loaded -/

def ringOf (positions : List UInt32) : RingMeta :=
  ⟨UInt32.ofNat positions.length, fun i => positions.getD i 0⟩

def backendOf (health : UInt8) : BackendEntry :=
  { ip := #v[10, 0, 0, 1], port := 8080, health := health, vnodeCount := 1 }

/-- Maps on which filter_manager and route_manager have run on every CPU. -/
def loaded (vnodes : List (UInt32 × UInt32)) (backends : List (UInt32 × BackendEntry)) : Kernel where
  ringMeta := ringOf (vnodes.map Prod.fst)
  haRing := GoMap.writeAll vnodes
  maglevTable := Maglev.emptyTable
  instanceRegistry := GoMap.writeAll backends
  circuitState := ∅
  instanceStats := ∅
  selection := fun _ => ⟨0, Vector.replicate 4 0, 0⟩
  tailDepth := fun _ => 2
  progArray := fun _ => true
  redirectHash := fun _ => 1
  relayed := []
  events := []

end OmegaLb.KernelMaps
