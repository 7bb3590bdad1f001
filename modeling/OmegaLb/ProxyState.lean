import OmegaLb.GoMath
import OmegaLb.HaRing

/-! What the handlers and loops of the Python proxy share: the token buckets, the counters and
health flags of MetricsStore, and the ring. The sample windows and histories that only feed the
control loop are left out. -/
namespace OmegaLb.OmegaProxy
open GoText (Bytes ascii decimal)
open HaRing (HAring pyIndex)

structure TokenBucket (F : Type) where
  rate : F
  tokens : F
  last : F

section Bucket
variable {F : Type} [GoMath F]

def TokenBucket.consume (b : TokenBucket F) (now : F) : TokenBucket F × Bool :=
  let grown := b.tokens + b.rate * (now - b.last)
  let tokens := if GoFloat.gt b.rate grown then grown else b.rate
  if GoMath.le (GoFloat.lit 1) tokens then (⟨b.rate, tokens - GoFloat.lit 1, now⟩, true)
  else (⟨b.rate, tokens, now⟩, false)

def TokenBucket.setRate (b : TokenBucket F) (rate : F) : TokenBucket F :=
  { b with rate := if GoFloat.gt rate (GoFloat.lit 10) then rate else GoFloat.lit 10 }

end Bucket

structure MetricsStore where
  active : Nat → Nat
  totalReq : Nat → Nat
  totalErr : Nat → Nat
  totalBytes : Nat → Nat
  health : Nat → Bool

def MetricsStore.recordRequestStart (m : MetricsStore) (backendId : Nat) : MetricsStore :=
  { m with active := Function.update m.active backendId (m.active backendId + 1) }

def MetricsStore.recordRequestEnd (m : MetricsStore) (backendId : Nat) (isError : Bool) (respBytes : Nat) :
    MetricsStore :=
  { m with
    active := Function.update m.active backendId (m.active backendId - 1)
    totalReq := Function.update m.totalReq backendId (m.totalReq backendId + 1)
    totalErr := Function.update m.totalErr backendId (m.totalErr backendId + if isError then 1 else 0)
    totalBytes := Function.update m.totalBytes backendId (m.totalBytes backendId + respBytes) }

structure Proxy (F : Type) where
  ring : HAring
  metrics : MetricsStore
  buckets : Nat → TokenBucket F
  reqCount : Nat

section
variable {F : Type}

def Proxy.start (p : Proxy F) (backendId : Nat) : Proxy F :=
  { p with metrics := p.metrics.recordRequestStart backendId }

def Proxy.finish (p : Proxy F) (backendId : Nat) (isError : Bool) (respBytes : Nat) : Proxy F :=
  { p with metrics := p.metrics.recordRequestEnd backendId isError respBytes }

def Proxy.nextHealthy (p : Proxy F) (exclude : List Nat) : Option Nat :=
  (List.range p.ring.n).find? fun i => i ∉ exclude ∧ p.metrics.health i

/-- set_health of the ring and the flag of MetricsStore, which are only ever set together. -/
def Proxy.putHealth (p : Proxy F) (k : Nat) (healthy : Bool) : Proxy F :=
  { p with
    ring := p.ring.putHealth k healthy
    metrics := { p.metrics with health := Function.update p.metrics.health k healthy } }

def Proxy.setHealth (p : Proxy F) (backendId : Int) (healthy : Bool) : Option (Proxy F) :=
  (pyIndex p.ring.n backendId).map (p.putHealth · healthy)

def Proxy.setVnodes (p : Proxy F) (backendId count : Int) : Option (Proxy F) :=
  (p.ring.setVnodes backendId count).map fun ring => { p with ring := ring }

def Proxy.setRate [GoMath F] (p : Proxy F) (backendId : Nat) (rate : F) : Proxy F :=
  { p with buckets := Function.update p.buckets backendId ((p.buckets backendId).setRate rate) }

theorem nextHealthySome {p : Proxy F} {exclude : List Nat} {alt : Nat}
    (found : p.nextHealthy exclude = some alt) :
    alt < p.ring.n ∧ alt ∉ exclude ∧ p.metrics.health alt = true := by
  have holds := List.find?_some found
  simp only [Bool.decide_and, Bool.decide_eq_true, Bool.and_eq_true, decide_eq_true_eq] at holds
  exact ⟨List.mem_range.mp (List.mem_of_find?_eq_some found), holds.1, holds.2⟩

theorem setVnodesMetrics {p q : Proxy F} {backendId count : Int}
    (set : p.setVnodes backendId count = some q) : q.metrics = p.metrics ∧ q.buckets = p.buckets := by
  obtain ⟨ring, _, rfl⟩ := Option.map_eq_some_iff.mp set
  exact ⟨rfl, rfl⟩

end

end OmegaLb.OmegaProxy
