import OmegaLb.RlAgent

/-! The step of agent.go from its raw weights on, with what it did kept beside its result, and
the loop around it: an agent that steps over one set of backends while operators change its mode,
its model and its projector. -/
namespace OmegaLb.Rl
open CbfProjector (CBFProjector CBFBackendState CBFError)
open Metrics (Collector)
open RingManager (Manager Runtime)

inductive Outcome (F : Type) where
  | frozen
  | held (candidate : List F)
  | applied (weights : List F)
  deriving DecidableEq, Repr

def Outcome.error {F : Type} : Outcome F → Option StepError
  | .frozen => some .frozen
  | .held _ => none
  | .applied _ => none

structure Stepped (F : Type) where
  agent : Agent F
  ring : Manager F
  projected : List F
  outcome : Outcome F

section Model
variable {F : Type} [GoMath F] [GoRoots F]

/-- `failure` makes the projection fail where it would not have. -/
def Agent.projection (a : Agent F) (state : List F) (ids : List UInt32) (rawW : List F)
    (failure : Option (CBFError F)) : CBFProjector F × List F × Option (CBFError F) :=
  match failure with
  | some cause => a.cbf.failSafe rawW cause
  | none => a.cbf.project rawW state (ids.map fun id => CBFBackendState.mk id (GoFloat.lit 0))

def Agent.modelWeight (a : Agent F) (state : List F) : F :=
  a.ood.actionWeight (a.ood.score state) (GoFloat.lit 1.0 - a.actionSmoothing)

/-- What a step without a failure offers to the gate. -/
def Agent.candidate (a : Agent F) (state : List F) (ids : List UInt32) (rawW : List F) : List F :=
  a.smooth (a.modelWeight state) (a.projection state ids rawW none).2.1

def Agent.settle (a : Agent F) (rt : Nat → Runtime) (m : Manager F) (ids : List UInt32)
    (projected safeW : List F) : Go (Stepped F) := do
  let (a, apply) ← a.shouldApplyWeights safeW ids.length
  if !apply then return ⟨a, m, projected, .held safeW⟩
  else
    let m ← applyWeightsToRing rt m ids safeW
    return ⟨{ a with prevAppliedW := some safeW }, m, projected, .applied safeW⟩

def Agent.stepFrom (a : Agent F) (rt : Nat → Runtime) (m : Manager F) (state : List F)
    (ids : List UInt32) (rawW : List F) (failure : Option (CBFError F)) : Go (Stepped F) :=
  let (cbf, safeW, _) := a.projection state ids rawW failure
  let observed := { a with ood := a.ood.observe state, cbf := cbf }
  if cbf.isFrozen then .ok ⟨observed, m, safeW, .frozen⟩
  else
    let smoothed := a.smooth (a.modelWeight state) safeW
    { observed with prevW := some smoothed }.settle rt m ids safeW smoothed

inductive Weights (F : Type) where
  | asked (wait : Wait)
  | given (rawW : List F)

def Agent.rawFrom (a : Agent F) (state : List F) (n : Nat) : Weights F → Go (List F)
  | .asked wait => a.rawWeights wait state n
  | .given rawW => .ok rawW

theorem actSettles (a : Agent F) (rt : Nat → Runtime) (m : Manager F) (ids : List UInt32)
    (projected safeW : List F) : a.act rt m ids safeW = do
      let s ← a.settle rt m ids projected safeW
      return (s.agent, s.ring, s.outcome.error) := by
  unfold Agent.act Agent.settle
  cases a.shouldApplyWeights safeW ids.length with
  | error p => rfl
  | ok verdict =>
    obtain ⟨next, apply⟩ := verdict
    cases apply with
    | false => rfl
    | true =>
      simp only [bind, Except.bind]
      cases applyWeightsToRing rt m ids safeW <;> rfl

/-- The step of the source is the step from the weights that its mode asks for. -/
theorem stepRaw (a : Agent F) (rt : Nat → Runtime) (m : Manager F)
    (collector : Option (Collector F)) (wait : Wait) {state : List F} {ids : List UInt32}
    (collected : collectState rt collector = (state, ids)) (some_ : ids.length ≠ 0) :
    a.step rt m collector wait = do
      let rawW ← a.rawFrom state ids.length (.asked wait)
      let s ← a.stepFrom (fun k => rt (k + 2)) m state ids rawW none
      return (s.agent, s.ring, s.outcome.error) := by
  have same : { a with ood := a.ood.observe state }.rawWeights wait state ids.length =
      a.rawWeights wait state ids.length := rfl
  simp only [Agent.step, collected, if_neg some_, same, Agent.rawFrom]
  cases a.rawWeights wait state ids.length with
  | error p => rfl
  | ok rawW =>
    simp only [bind, Except.bind, Agent.stepFrom, Agent.projection]
    split
    · rename_i halted
      simp only [halted, if_true]
      rfl
    · rename_i running
      simp only [running]
      exact actSettles _ _ m ids _ _

/-! ### Slices of any length -/

omit [GoRoots F] in
theorem l2distFold {u : List F} (rest : List (F × Nat)) (s : F) (within : ∀ e ∈ rest, e.2 < u.length) :
    ∃ d, rest.foldlM (fun s (x, i) => do
      let y ← goIndex u i
      let d := x - y
      return s + d * d) s = (.ok d : Go F) := by
  induction rest generalizing s with
  | nil => exact ⟨s, rfl⟩
  | cons e rest ih =>
    obtain ⟨first, later⟩ := List.forall_mem_cons.mp within
    have found : goIndex u e.2 = .ok u[e.2] := goIndexFound (List.getElem?_eq_getElem first)
    rw [List.foldlM_cons]
    simp only [found, bind, Except.bind]
    exact ih _ later

theorem l2distReturns {v u : List F} (short : v.length ≤ u.length) : ∃ d, l2dist v u = .ok d := by
  have within : ∀ e ∈ v.zipIdx, e.2 < u.length := by
    intro e member
    have bound := (List.mem_zipIdx member).2.1
    omega
  obtain ⟨d, folded⟩ := l2distFold v.zipIdx (GoFloat.lit 0) within
  exact ⟨GoRoots.sqrt d, by rw [l2dist, folded]; rfl⟩

theorem goIndexBeyond {α : Type} {xs : List α} {i : Nat} (beyond : xs.length ≤ i) :
    goIndex xs i = .error .indexOutOfRange := by
  simp [goIndex, List.getElem?_eq_none beyond]

theorem l2distBeyond {v u : List F} (long : u.length < v.length) :
    l2dist v u = .error .indexOutOfRange := by
  obtain ⟨x, rest, tail⟩ := List.exists_cons_of_length_pos (l := v.drop u.length) (by simpa using long)
  have split : v = v.take u.length ++ x :: rest := by rw [← tail, List.take_append_drop]
  have front : (v.take u.length).length = u.length := List.length_take_of_le long.le
  have within : ∀ e ∈ (v.take u.length).zipIdx, e.2 < u.length := by
    intro e member
    have bound := (List.mem_zipIdx member).2.1
    omega
  obtain ⟨d, folded⟩ := l2distFold (v.take u.length).zipIdx (GoFloat.lit 0) within
  rw [l2dist, split, List.zipIdx_append, List.foldlM_append, folded, front, List.zipIdx_cons,
    Nat.zero_add]
  simp only [bind, Except.bind, List.foldlM_cons, goIndexBeyond (le_refl u.length)]

variable {w : List F} {ids : List UInt32}

omit [GoRoots F] in
theorem applyReturns (rt : Nat → Runtime) (n : Int) (m : Manager F) (i : Nat)
    (long : i + ids.length ≤ w.length) : ∃ next, applyFrom rt w n m i ids = .ok next := by
  induction ids generalizing m i with
  | nil => exact ⟨m, rfl⟩
  | cons id rest ih =>
    rw [List.length_cons] at long
    have found : goIndex w i = .ok w[i] := goIndexFound (List.getElem?_eq_getElem (by omega))
    rw [applyFrom, found]
    exact ih _ (i + 1) (by omega)

omit [GoRoots F] in
theorem applyBeyond (rt : Nat → Runtime) (n : Int) (m : Manager F) (i : Nat) (inside : i ≤ w.length)
    (short : w.length < i + ids.length) : applyFrom rt w n m i ids = .error .indexOutOfRange := by
  induction ids generalizing m i with
  | nil =>
    rw [List.length_nil] at short
    omega
  | cons id rest ih =>
    rw [List.length_cons] at short
    by_cases last : i = w.length
    · rw [applyFrom, goIndexBeyond last.ge]
      rfl
    · have found : goIndex w i = .ok w[i] := goIndexFound (List.getElem?_eq_getElem (by omega))
      rw [applyFrom, found]
      exact ih _ (i + 1) (by omega) (by omega)

theorem gateFirst {a : Agent F} (fresh : a.prevAppliedW = none) (w : List F) (n : Int) :
    a.shouldApplyWeights w n = .ok (a, true) := by
  simp only [Agent.shouldApplyWeights, fresh]

theorem settleOpen {a next : Agent F} (opens : a.shouldApplyWeights w ids.length = .ok (next, true))
    (long : ids.length ≤ w.length) (rt : Nat → Runtime) (m : Manager F) (projected : List F) :
    ∃ m', applyWeightsToRing rt m ids w = .ok m' ∧ a.settle rt m ids projected w =
      .ok ⟨{ next with prevAppliedW := some w }, m', projected, .applied w⟩ := by
  obtain ⟨m', written⟩ := applyReturns rt ids.length m 0 (show 0 + ids.length ≤ w.length by omega)
  have written' : applyWeightsToRing rt m ids w = .ok m' := written
  refine ⟨m', written, ?_⟩
  simp only [Agent.settle, opens, bind, Except.bind, written']
  rfl

theorem settleShort {a next : Agent F} (opens : a.shouldApplyWeights w ids.length = .ok (next, true))
    (short : w.length < ids.length) (rt : Nat → Runtime) (m : Manager F) (projected : List F) :
    a.settle rt m ids projected w = .error .indexOutOfRange := by
  have beyond : applyWeightsToRing rt m ids w = .error .indexOutOfRange :=
    applyBeyond rt ids.length m 0 (Nat.zero_le _) (by omega)
  simp only [Agent.settle, opens, bind, Except.bind, beyond]
  rfl

theorem settleClosed {a next : Agent F} (closes : a.shouldApplyWeights w ids.length = .ok (next, false))
    (rt : Nat → Runtime) (m : Manager F) (projected : List F) :
    a.settle rt m ids projected w = .ok ⟨next, m, projected, .held w⟩ := by
  simp only [Agent.settle, closes, bind, Except.bind]
  rfl

end Model

/-! ### The loop -/

structure Loop where
  agent : Agent ℚ
  ring : Manager ℚ
  projected : Option (List ℚ)
  last : Option (Outcome ℚ)

/-- NewAgent, before its first step. -/
def newLoop (actionSmoothing : ℚ) (kan : Option (KANActor ℚ)) (cbf : CBFProjector ℚ)
    (m : Manager ℚ) : Loop := ⟨newAgent actionSmoothing kan cbf, m, none, none⟩

inductive LoopEvent where
  | step (rt : Nat → Runtime) (state : List ℚ) (weights : Weights ℚ) (failure : Option (CBFError ℚ))
  | setMode (mode : AgentMode) (manualWeights : List ℚ)
  | hotReload (kan : KANActor ℚ)
  | resetProjector

def Loop.take [GoRoots ℚ] (s : Loop) (rt : Nat → Runtime) (state : List ℚ) (ids : List UInt32)
    (weights : Weights ℚ) (failure : Option (CBFError ℚ)) : Go Loop := do
  let rawW ← s.agent.rawFrom state ids.length weights
  let r ← s.agent.stepFrom rt s.ring state ids rawW failure
  return ⟨r.agent, r.ring, some r.projected, some r.outcome⟩

/-- A step that panics ends the run. -/
def Loop.exec [GoRoots ℚ] (ids : List UInt32) (s : Loop) : LoopEvent → Option Loop
  | .step rt state weights failure => (s.take rt state ids weights failure).toOption
  | .setMode mode manualWeights => some { s with agent := s.agent.setMode mode manualWeights }
  | .hotReload kan => some { s with agent := s.agent.hotReload kan }
  | .resetProjector => some { s with agent.cbf := s.agent.cbf.reset }

/-- The raw weights are one for each backend. -/
def Fits [GoRoots ℚ] (n : Nat) (s : Loop) : LoopEvent → Prop
  | .step _ state weights _ => ∀ rawW, s.agent.rawFrom state n weights = .ok rawW → rawW.length = n
  | .setMode _ _ => True
  | .hotReload _ => True
  | .resetProjector => True

theorem takeStepped [GoRoots ℚ] {s t : Loop} {rt : Nat → Runtime} {state : List ℚ} {ids : List UInt32}
    {weights : Weights ℚ} {failure : Option (CBFError ℚ)}
    (taken : s.take rt state ids weights failure = .ok t) :
    ∃ rawW r, s.agent.rawFrom state ids.length weights = .ok rawW ∧
      s.agent.stepFrom rt s.ring state ids rawW failure = .ok r ∧
      t = ⟨r.agent, r.ring, some r.projected, some r.outcome⟩ := by
  unfold Loop.take at taken
  cases raw : s.agent.rawFrom state ids.length weights with
  | error p =>
    rw [raw] at taken
    contradiction
  | ok rawW =>
    rw [raw] at taken
    simp only [bind, Except.bind] at taken
    cases stepped : s.agent.stepFrom rt s.ring state ids rawW failure with
    | error p =>
      rw [stepped] at taken
      contradiction
    | ok r =>
      rw [stepped] at taken
      cases taken
      exact ⟨rawW, r, rfl, stepped, rfl⟩

theorem takeRaw [GoRoots ℚ] {s t : Loop} {rt : Nat → Runtime} {state : List ℚ} {ids : List UInt32}
    {weights : Weights ℚ} {failure : Option (CBFError ℚ)}
    (taken : s.take rt state ids weights failure = .ok t) :
    ∃ rawW, s.agent.rawFrom state ids.length weights = .ok rawW := by
  obtain ⟨rawW, _, raw, _⟩ := takeStepped taken
  exact ⟨rawW, raw⟩

end OmegaLb.Rl
