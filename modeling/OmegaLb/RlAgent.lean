import OmegaLb.CbfProjector
import OmegaLb.KanActor
import OmegaLb.OodDetector
import OmegaLb.StateVector

/-! The control loop of agent.go. One step reads the collector, asks for weights, projects and
smooths them, and writes them to the ring unless the oscillation gate holds them back. A slice
is indexed as the source indexes it, so that a vector of the wrong length panics. -/
namespace OmegaLb.Rl
open CbfProjector (CBFProjector CBFBackendState uniformWeights)
open Metrics (Collector)
open RingManager (Manager Runtime)

inductive AgentMode where
  | auto
  | assisted
  | manual
  deriving DecidableEq, Repr

structure Agent (F : Type) where
  actionSmoothing : F
  kan : Option (KANActor F)
  cbf : CBFProjector F
  ood : OODDetector F
  prevW : Option (List F)
  mode : AgentMode
  manualWeights : List F
  prevAppliedW : Option (List F)
  pendingW : Option (List F)
  pendingAgreements : Int

inductive StepError where
  | frozen
  deriving DecidableEq, Repr

def StepError.text : StepError → String
  | .frozen => "CBF projector is frozen; RL control loop suspended"

section Model
variable {F : Type} [GoMath F]

def newAgent (actionSmoothing : F) (kan : Option (KANActor F)) (cbf : CBFProjector F) : Agent F where
  actionSmoothing := actionSmoothing
  kan := kan
  cbf := cbf
  ood := newOODDetector 64 (GoFloat.lit 3.0)
  prevW := none
  mode := .auto
  manualWeights := []
  prevAppliedW := none
  pendingW := none
  pendingAgreements := 0

def Agent.setMode (a : Agent F) (m : AgentMode) (manualWeights : List F) : Agent F :=
  let a := { a with mode := m }
  if m = .manual ∧ manualWeights.length > 0 then { a with manualWeights := manualWeights } else a

def Agent.hotReload (a : Agent F) (kan : KANActor F) : Agent F := { a with kan := some kan }

/-! ### The oscillation gate -/

def vnodeCount (weight : F) (base nBackends : Int) : Int :=
  let count := GoMath.round (weight * GoFloat.ofInt base * GoFloat.ofInt nBackends)
  if count < 1 then 1 else count

def vnodeBase : Int := 150

def totalCount (w : List F) (nBackends : Int) : Int :=
  (w.map fun x => vnodeCount x vnodeBase nBackends).sum

def l2dist [GoRoots F] (a b : List F) : Go F := do
  let s ← a.zipIdx.foldlM (fun s (x, i) => do
    let y ← goIndex b i
    let d := x - y
    return s + d * d) (GoFloat.lit 0)
  return GoRoots.sqrt s

def requiredAgreements : Int := 2

def Agent.agrees [GoRoots F] (a : Agent F) (candidate : List F) : Go Bool :=
  match a.pendingW with
  | none => .ok false
  | some pending => do return GoFloat.gt (GoFloat.lit 0.02) (← l2dist pending candidate)

def Agent.clearPending (a : Agent F) : Agent F := { a with pendingW := none, pendingAgreements := 0 }

def Agent.holdLarge [GoRoots F] (a : Agent F) (candidate : List F) : Go (Agent F × Bool) := do
  if ← a.agrees candidate then
    let a := { a with pendingAgreements := a.pendingAgreements + 1 }
    return if a.pendingAgreements ≥ requiredAgreements then (a.clearPending, true) else (a, false)
  else return ({ a with pendingW := some candidate, pendingAgreements := 1 }, false)

def Agent.shouldApplyWeights [GoRoots F] (a : Agent F) (candidate : List F) (nBackends : Int) :
    Go (Agent F × Bool) :=
  match a.prevAppliedW with
  | none => .ok (a, true)
  | some prev =>
    if prev.length ≠ candidate.length then .ok (a, true)
    else
      let oldTotal := totalCount prev nBackends
      let newTotal := totalCount candidate nBackends
      if oldTotal = 0 then .ok (a, true)
      else
        let delta : F := GoMath.abs (GoFloat.ofInt (newTotal - oldTotal)) / GoFloat.ofInt oldTotal
        if GoMath.le delta (GoFloat.lit 0.10) then .ok (a.clearPending, true)
        else a.holdLarge candidate

/-! ### The step -/

def applyFrom (rt : Nat → Runtime) (weights : List F) (nBackends : Int) :
    Manager F → Nat → List UInt32 → Go (Manager F)
  | m, _, [] => .ok m
  | m, i, id :: rest => do
    let weight ← goIndex weights i
    applyFrom rt weights nBackends
      (m.setVnodeCount (rt i) id (vnodeCount weight vnodeBase nBackends)) (i + 1) rest

/-- totalVnodes is the gate's vnodeBase, and the count is computed as vnodeCount does. -/
def applyWeightsToRing (rt : Nat → Runtime) (m : Manager F) (backends : List UInt32)
    (weights : List F) : Go (Manager F) :=
  applyFrom rt weights backends.length m 0 backends

def Agent.rawWeights [GoRoots F] (a : Agent F) (wait : Wait) (state : List F) (nBackends : Nat) :
    Go (List F) :=
  match a.mode with
  | .manual =>
    .ok (if a.manualWeights.length = nBackends then a.manualWeights else uniformWeights nBackends)
  | .assisted => .ok (uniformWeights nBackends)
  | .auto =>
    match a.kan with
    | none => .ok (uniformWeights nBackends)
    | some kan => do
      let (rawW, err) ← kan.infer wait state
      return if err.isSome then uniformWeights nBackends else rawW

def Agent.smooth (a : Agent F) (modelWeight : F) (safeW : List F) : List F :=
  match a.prevW with
  | none => safeW
  | some prevW =>
    if prevW.length ≠ safeW.length then safeW
    else List.zipWith (fun safe prev =>
      modelWeight * safe + (GoFloat.lit 1 - modelWeight) * prev) safeW prevW

def Agent.act [GoRoots F] (rt : Nat → Runtime) (a : Agent F) (m : Manager F)
    (backends : List UInt32) (safeW : List F) : Go (Agent F × Manager F × Option StepError) := do
  let (a, apply) ← a.shouldApplyWeights safeW backends.length
  if !apply then return (a, m, none)
  else
    let m ← applyWeightsToRing rt m backends safeW
    return ({ a with prevAppliedW := some safeW }, m, none)

def Agent.step [GoRoots F] (rt : Nat → Runtime) (a : Agent F) (m : Manager F)
    (collector : Option (Collector F)) (wait : Wait) :
    Go (Agent F × Manager F × Option StepError) := do
  let (state, backends) := collectState rt collector
  if backends.length = 0 then return (a, m, none)
  else
    let oodScore := a.ood.score state
    let modelWeight := a.ood.actionWeight oodScore (GoFloat.lit 1.0 - a.actionSmoothing)
    let a := { a with ood := a.ood.observe state }
    let rawW ← a.rawWeights wait state backends.length
    let cbfBackends := backends.map fun id => CBFBackendState.mk id (GoFloat.lit 0)
    -- a failure is logged, and the weights that come with it are used
    let (cbf, safeW, _) := a.cbf.project rawW state cbfBackends
    let a := { a with cbf := cbf }
    if cbf.isFrozen then return (a, m, some .frozen)
    else
      let safeW := a.smooth modelWeight safeW
      { a with prevW := some safeW }.act (fun k => rt (k + 2)) m backends safeW

end Model

end OmegaLb.Rl
