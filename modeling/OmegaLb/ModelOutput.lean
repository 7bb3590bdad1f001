import OmegaLb.AgentSteps
import OmegaLb.CbfRecovery
import OmegaLb.StateLayout

/-! The length of what a model returns, on its way through the step. Nothing checks it: a vector
that is not one weight for each backend comes out of the projection with the length it had, and
only a frozen projector or the gate keeps it from the ring. -/
namespace OmegaLb.Rl
open CbfProjector
open Metrics (Collector)
open RingManager (Manager Runtime)

variable {F : Type} [GoMath F]

/-! ### The weights that a mode asks for -/

theorem serverScoreReturns {state : List F} {i : Nat} (inside : i * perServer + 7 < state.length) :
    ∃ x, serverScore state i = .ok x := by
  have read : ∀ k, k < perServer → ∃ x, goIndex state (i * perServer + k) = .ok x := by
    intro k few
    unfold perServer at few inside
    have bound : i * perServer + k < state.length := by
      unfold perServer
      omega
    exact ⟨_, by exact_mod_cast goIndexFound (List.getElem?_eq_getElem bound)⟩
  obtain ⟨base, atBase⟩ := read 0 (by decide)
  obtain ⟨latency, atLatency⟩ := read 3 (by decide)
  obtain ⟨health, atHealth⟩ := read 6 (by decide)
  obtain ⟨errRate, atErrRate⟩ := read 7 (by decide)
  simp only [Nat.cast_ofNat, Nat.cast_zero] at atBase atLatency atHealth atErrRate
  simp only [serverScore, atBase, atLatency, atHealth, atErrRate, bind, Except.bind]
  exact ⟨_, rfl⟩

theorem normalizeLength (v : List F) : (normalize v).length = v.length := by
  unfold normalize
  dsimp only
  split <;> simp

theorem fallbackReturns (state : List F) : ∃ w, symbolicFallback state = .ok w ∧
    (perServer ≤ state.length → w.length = (state.length - 4) / perServer) := by
  unfold symbolicFallback
  by_cases short : state.length < perServer
  · exact ⟨_, if_pos short, fun long => absurd short (not_lt.mpr long)⟩
  · rw [if_neg short]
    generalize servers : (state.length - 4) / perServer = n
    have each : ∀ i : Nat, ∃ x, i < n → serverScore state i = .ok x := by
      intro i
      by_cases inside : i < n
      · have bound : i * perServer + 7 < state.length := by
          unfold perServer at short servers ⊢
          omega
        obtain ⟨x, found⟩ := serverScoreReturns bound
        exact ⟨x, fun _ => found⟩
      · exact ⟨GoFloat.lit 0, fun below => absurd below inside⟩
    choose scores found using each
    have all : (List.range n).mapM (serverScore state) = .ok ((List.range n).map scores) :=
      goMapM fun i member => found i (List.mem_range.mp member)
    simp only [all, bind, Except.bind]
    refine ⟨_, rfl, fun _ => ?_⟩
    rw [normalizeLength, List.length_map, List.length_range]

theorem fallbackLength {state : List F} {n : Nat} (some_ : n ≠ 0) (layout : state.length = 8 * n + 4) :
    ∃ w, symbolicFallback state = .ok w ∧ w.length = n := by
  obtain ⟨w, symbolic, length⟩ := fallbackReturns state
  refine ⟨w, symbolic, (length ?_).trans ?_⟩
  · unfold perServer
    omega
  · unfold perServer
    omega

theorem uniformCount (n : Nat) : (uniformWeights n : List F).length = n := List.length_replicate

section Roots
variable [GoRoots F]

/-- The session answers the call, and `first` before any other vector. -/
def KANActor.Outputs (k : KANActor F) (wait : Wait) (state first : List F) : Prop :=
  k.inferCh = true ∧ wait = .answered ∧ ∃ run rest, k.session = some run ∧
    run (state.map GoMath.float32) = .ok (first :: rest)

inductive Inferred (k : KANActor F) (wait : Wait) (state fallback : List F) :
    Go (List F × Option InferError) → Prop where
  | symbolic : Inferred k wait state fallback (.ok (fallback, none))
  | failed (w : List F) (e : InferError) : Inferred k wait state fallback (.ok (w, some e))
  | output {first : List F} (outputs : k.Outputs wait state first) :
      Inferred k wait state fallback (.ok (softmax64 first, none))

theorem inferInferred (k : KANActor F) (wait : Wait) {state fallback : List F}
    (symbolic : symbolicFallback state = .ok fallback) :
    Inferred k wait state fallback (k.infer wait state) := by
  unfold KANActor.infer
  cases loop : k.inferCh with
  | false =>
    simp only [symbolic, bind, Except.bind]
    exact .symbolic
  | true =>
    cases wait with
    | notEnqueued => exact .failed _ _
    | notAnswered => exact .failed _ _
    | answered =>
      cases session : k.session with
      | none =>
        simp only [KANActor.runInference, session, symbolic, bind, Except.bind]
        exact .symbolic
      | some run =>
        cases output : run (state.map GoMath.float32) with
        | error message =>
          simp only [KANActor.runInference, session, output, symbolic, bind, Except.bind]
          exact .failed _ _
        | ok vectors =>
          simp only [KANActor.runInference, session, output, symbolic, bind, Except.bind]
          cases vectors with
          | nil => exact .failed _ _
          | cons first rest => exact .output ⟨loop, rfl, run, rest, session, output⟩

def Answered (a : Agent F) (wait : Wait) (state first : List F) : Prop :=
  a.mode = .auto ∧ ∃ k, a.kan = some k ∧ k.Outputs wait state first

theorem softmaxLength (logits : List F) : (softmax64 logits).length = logits.length := by
  simp [softmax64]

theorem rawWeightsLength (a : Agent F) (wait : Wait) {state : List F} {n : Nat} (some_ : n ≠ 0)
    (layout : state.length = 8 * n + 4) : ∃ rawW, a.rawWeights wait state n = .ok rawW ∧
      (rawW.length = n ∨ ∃ first, Answered a wait state first ∧ rawW.length = first.length) := by
  obtain ⟨fallback, symbolic, length⟩ := fallbackLength some_ layout
  unfold Agent.rawWeights
  cases mode : a.mode with
  | manual =>
    refine ⟨_, rfl, .inl ?_⟩
    split
    · assumption
    · exact uniformCount n
  | assisted => exact ⟨_, rfl, .inl (uniformCount n)⟩
  | auto =>
    cases actor : a.kan with
    | none => exact ⟨_, rfl, .inl (uniformCount n)⟩
    | some k =>
      have inferred := inferInferred k wait symbolic
      dsimp only
      generalize k.infer wait state = out at inferred
      cases inferred with
      | symbolic => exact ⟨_, rfl, .inl length⟩
      | failed w e => exact ⟨_, rfl, .inl (uniformCount n)⟩
      | @output first outputs =>
        exact ⟨_, rfl, .inr ⟨first, ⟨mode, k, actor, outputs⟩, softmaxLength first⟩⟩

/-! ### The gate -/

/-- The gate finds that the candidate changes the total by more than 10%. -/
def Compares (a : Agent F) (w : List F) (n : Int) : Prop :=
  ∃ prev, a.prevAppliedW = some prev ∧ prev.length = w.length ∧ totalCount prev n ≠ 0 ∧
    GoMath.le (GoMath.abs (GoFloat.ofInt (totalCount w n - totalCount prev n)) /
      GoFloat.ofInt (totalCount prev n)) (GoFloat.lit 0.10 : F) = false

/-- What is pending is longer than the candidate it is compared with. -/
def Overruns (a : Agent F) (w : List F) (n : Int) : Prop :=
  Compares a w n ∧ ∃ pending, a.pendingW = some pending ∧ w.length < pending.length

def HoldsBack (a : Agent F) (w : List F) (n : Int) : Prop :=
  Compares a w n ∧ ∀ pending, a.pendingW = some pending → pending.length ≤ w.length ∧
    ∀ d, l2dist pending w = .ok d → GoFloat.gt (GoFloat.lit 0.02) d = true →
      a.pendingAgreements + 1 < requiredAgreements

inductive Gated (a : Agent F) (w : List F) (n : Int) : Go (Agent F × Bool) → Prop where
  | opens (next : Agent F) (fits : ¬ Overruns a w n) (free : ¬ HoldsBack a w n) :
      Gated a w n (.ok (next, true))
  | holds (next : Agent F) (held : HoldsBack a w n) : Gated a w n (.ok (next, false))
  | overruns (beyond : Overruns a w n) : Gated a w n (.error .indexOutOfRange)

theorem holdLargeGated {a : Agent F} {w : List F} {n : Int} (compares : Compares a w n) :
    Gated a w n (a.holdLarge w) := by
  unfold Agent.holdLarge Agent.agrees
  cases known : a.pendingW with
  | none => exact .holds _ ⟨compares, fun pending some_ => by rw [known] at some_; contradiction⟩
  | some pending =>
    by_cases short : pending.length ≤ w.length
    · obtain ⟨d, measured⟩ := l2distReturns short
      have fits : ¬ Overruns a w n := by
        rintro ⟨_, other, same, long⟩
        cases known.symm.trans same
        omega
      simp only [measured, bind, Except.bind, pure, Except.pure]
      cases near : GoFloat.gt (GoFloat.lit 0.02 : F) d with
      | false =>
        refine .holds _ ⟨compares, fun other same => ?_⟩
        cases known.symm.trans same
        refine ⟨short, fun e again close => ?_⟩
        cases measured.symm.trans again
        rw [near] at close
        contradiction
      | true =>
        by_cases enough : a.pendingAgreements + 1 ≥ requiredAgreements
        · simp only [if_true, if_pos enough]
          refine .opens _ fits fun held => ?_
          have few := (held.2 pending known).2 d measured near
          omega
        · simp only [if_true, if_neg enough]
          refine .holds _ ⟨compares, fun other same => ?_⟩
          cases known.symm.trans same
          exact ⟨short, fun _ _ _ => by omega⟩
    · simp only [l2distBeyond (not_le.mp short), bind, Except.bind]
      exact .overruns ⟨compares, pending, known, not_le.mp short⟩

theorem gateGated (a : Agent F) (w : List F) (n : Int) : Gated a w n (a.shouldApplyWeights w n) := by
  have passes : ¬ Compares a w n → ∀ next, Gated a w n (.ok (next, true)) :=
    fun small next => .opens next (fun beyond => small beyond.1) fun held => small held.1
  rcases Option.eq_none_or_eq_some a.prevAppliedW with before | ⟨prev, before⟩
  · rw [gateFirst before]
    refine passes ?_ a
    rintro ⟨prev, same, _⟩
    rw [before] at same
    contradiction
  · have sole : Compares a w n ↔ prev.length = w.length ∧ totalCount prev n ≠ 0 ∧
        GoMath.le (GoMath.abs (GoFloat.ofInt (totalCount w n - totalCount prev n)) /
          GoFloat.ofInt (totalCount prev n)) (GoFloat.lit 0.10 : F) = false := by
      simp [Compares, before]
    simp only [Agent.shouldApplyWeights, before]
    split
    · rename_i apart
      exact passes (fun compares => apart (sole.mp compares).1) a
    · rename_i aligned
      split
      · rename_i zero
        exact passes (fun compares => (sole.mp compares).2.1 zero) a
      · rename_i nonzero
        split
        · rename_i small
          refine passes (fun compares => ?_) a.clearPending
          rw [(sole.mp compares).2.2] at small
          contradiction
        · rename_i large
          exact holdLargeGated (sole.mpr ⟨not_not.mp aligned, nonzero, Bool.eq_false_iff.mpr large⟩)

theorem heldFits {a : Agent F} {w : List F} {n : Int} (held : HoldsBack a w n) : ¬ Overruns a w n := by
  rintro ⟨_, pending, known, long⟩
  have short := (held.2 pending known).1
  omega

/-! ### One step -/

/-- A vector that reaches applyWeightsToRing has one weight for each backend. -/
def Stepped.Exact (r : Stepped F) (n : Nat) : Prop := ∀ w, r.outcome = .applied w → w.length = n

theorem settleExact (a : Agent F) (rt : Nat → Runtime) (m : Manager F) (ids : List UInt32)
    (projected w : List F) : (∃ r, a.settle rt m ids projected w = .ok r ∧ r.Exact ids.length) ↔
      ¬ Overruns a w ids.length ∧ (w.length = ids.length ∨ HoldsBack a w ids.length) := by
  have gated := gateGated a w ids.length
  generalize out : a.shouldApplyWeights w ids.length = verdict at gated
  cases gated with
  | opens next fits free =>
    constructor
    · rintro ⟨r, settled, exact_⟩
      refine ⟨fits, .inl ?_⟩
      by_cases short : w.length < ids.length
      · rw [settleShort out short] at settled
        contradiction
      · obtain ⟨m', _, opened⟩ := settleOpen out (not_lt.mp short) rt m projected
        rw [opened] at settled
        cases settled
        exact exact_ w rfl
    · rintro ⟨_, same | held⟩
      · obtain ⟨m', _, opened⟩ := settleOpen out same.ge rt m projected
        refine ⟨_, opened, fun v applied => ?_⟩
        cases applied
        exact same
      · exact absurd held free
  | holds next held =>
    refine ⟨fun _ => ⟨heldFits held, .inr held⟩, fun _ => ⟨_, settleClosed out rt m projected, ?_⟩⟩
    exact fun _ applied => by contradiction
  | overruns beyond =>
    refine ⟨?_, fun suits => absurd beyond suits.1⟩
    rintro ⟨r, settled, _⟩
    simp only [Agent.settle, out, bind, Except.bind] at settled
    contradiction

omit [GoRoots F] in
theorem descendLength (c : CBFProjector F) {rawW : List F} {backends : List (CBFBackendState F)}
    (paired : backends.length = rawW.length) (fuel : Nat) {w : List F} (aligned : w.length = rawW.length) :
    (c.descend rawW backends fuel w).length = rawW.length := by
  induction fuel generalizing w with
  | zero => exact aligned
  | succ fuel ih =>
    rw [CBFProjector.descend]
    split
    · apply ih
      simp [CbfProjector.projectLength, CBFProjector.gradientStep, paired, aligned]
    · exact aligned

omit [GoRoots F] in
theorem projectOutputLength (c : CBFProjector F) (rawW state : List F)
    (backends : List (CBFBackendState F)) : (c.project rawW state backends).2.1.length = rawW.length := by
  have failing : ∀ cause, (c.failSafe rawW cause).2.1.length = rawW.length := by
    intro cause
    rw [failSafeSpec]
    dsimp only
    split
    · assumption
    · exact uniformCount _
  unfold CBFProjector.project
  dsimp only
  split
  · rfl
  · split
    · exact failing _
    · rename_i paired
      have length := descendLength c (not_not.mp paired) maxIter (CbfProjector.projectLength rawW)
      split
      · exact failing _
      · split
        · exact failing _
        · exact length

theorem candidateOutputLength (a : Agent F) (state : List F) (ids : List UInt32) (rawW : List F) :
    (a.candidate state ids rawW).length = rawW.length := by
  have projected : (a.projection state ids rawW none).2.1.length = rawW.length :=
    projectOutputLength _ _ state _
  unfold Agent.candidate Agent.smooth
  split
  · exact projected
  · split
    · exact projected
    · rename_i same
      rw [List.length_zipWith, not_not.mp same, min_self, projected]

/-- The step from these raw weights stops before the gate, or the gate can compare its candidate
and lets it pass only with one weight for each backend. -/
def Suitable (a : Agent F) (state : List F) (ids : List UInt32) (rawW : List F) : Prop :=
  (a.projection state ids rawW none).1.isFrozen = true ∨
    ¬ Overruns a (a.candidate state ids rawW) ids.length ∧
      (rawW.length = ids.length ∨ HoldsBack a (a.candidate state ids rawW) ids.length)

theorem stepFromExact (a : Agent F) (rt : Nat → Runtime) (m : Manager F) (state : List F)
    (ids : List UInt32) (rawW : List F) :
    (∃ r, a.stepFrom rt m state ids rawW none = .ok r ∧ r.Exact ids.length) ↔
      Suitable a state ids rawW := by
  rw [Suitable, ← candidateOutputLength a state ids rawW]
  simp only [Agent.stepFrom]
  cases halts : (a.projection state ids rawW none).1.isFrozen with
  | true => exact ⟨fun _ => .inl rfl, fun _ => ⟨_, rfl, fun _ applied => by contradiction⟩⟩
  | false =>
    simp only [Bool.false_eq_true, if_false, false_or]
    exact settleExact _ rt m ids _ _

omit [GoRoots F] in
/-- A vector of another length freezes the projector unless it has no entry. -/
theorem mismatchFreezes (a : Agent F) (state : List F) {ids : List UInt32} {rawW : List F}
    (wrong : rawW.length ≠ ids.length) : (a.projection state ids rawW none).1.isFrozen = true ↔
      a.cbf.frozenMode = true ∨ rawW ≠ [] ∧ 2 ≤ a.cbf.consecutiveFailures := by
  by_cases empty : rawW = []
  · simp [Agent.projection, CBFProjector.project, CBFProjector.isFrozen, empty]
  · have some_ : rawW.length ≠ 0 := fun zero => empty (List.length_eq_zero_iff.mp zero)
    have third : 3 ≤ a.cbf.consecutiveFailures + 1 ↔ 2 ≤ a.cbf.consecutiveFailures := by omega
    simp only [Agent.projection, CBFProjector.project, if_neg some_, List.length_map,
      if_pos wrong.symm, failSafeSpec, CBFProjector.isFrozen, Bool.or_eq_true, decide_eq_true_eq, third]
    simp [empty, or_comm]

/-! ### Every run -/

structure Control (F : Type) where
  agent : Agent F
  ring : Manager F

inductive ControlEvent (F : Type) where
  | step (rt : Nat → Runtime) (collector : Option (Collector F)) (wait : Wait)
  | setMode (mode : AgentMode) (manualWeights : List F)
  | hotReload (kan : KANActor F)
  | resetProjector

def Control.exec (s : Control F) : ControlEvent F → Go (Control F × Option (Outcome F))
  | .step rt collector wait =>
    let (state, ids) := collectState rt collector
    if ids.length = 0 then .ok (s, none)
    else do
      let rawW ← s.agent.rawFrom state ids.length (.asked wait)
      let r ← s.agent.stepFrom (fun k => rt (k + 2)) s.ring state ids rawW none
      return (⟨r.agent, r.ring⟩, some r.outcome)
  | .setMode mode manualWeights => .ok ({ s with agent := s.agent.setMode mode manualWeights }, none)
  | .hotReload kan => .ok ({ s with agent := s.agent.hotReload kan }, none)
  | .resetProjector => .ok ({ s with agent.cbf := s.agent.cbf.reset }, none)

theorem execSteps (s : Control F) (rt : Nat → Runtime) (collector : Option (Collector F)) (wait : Wait) :
    s.agent.step rt s.ring collector wait = do
      let (t, outcome) ← s.exec (.step rt collector wait)
      return (t.agent, t.ring, outcome.bind Outcome.error) := by
  obtain ⟨⟨state, ids⟩, collected⟩ : ∃ p, collectState rt collector = p := ⟨_, rfl⟩
  by_cases none_ : ids.length = 0
  · simp only [Agent.step, Control.exec, collected, if_pos none_, bind, Except.bind]
    rfl
  · rw [stepRaw s.agent rt s.ring collector wait collected none_]
    simp only [Control.exec, collected, if_neg none_, bind, Except.bind]
    cases s.agent.rawFrom state ids.length (.asked wait) with
    | error p => rfl
    | ok rawW =>
      dsimp only
      cases s.agent.stepFrom (fun k => rt (k + 2)) s.ring state ids rawW none <;> rfl

/-- The entries of a vector that an event writes to the ring, against those that it should have. -/
def Lengths (e : ControlEvent F) (outcome : Option (Outcome F)) : Prop :=
  ∀ rt collector wait w, e = .step rt collector wait → outcome = some (.applied w) →
    w.length = (collectState rt collector).2.length

def Control.Safely (s : Control F) : List (ControlEvent F) → Prop
  | [] => True
  | e :: es => ∃ t outcome, s.exec e = .ok (t, outcome) ∧ Lengths e outcome ∧ t.Safely es

def Control.Suits (s : Control F) (e : ControlEvent F) : Prop :=
  ∀ rt collector wait rawW, e = .step rt collector wait → (collectState rt collector).2 ≠ [] →
    s.agent.rawWeights wait (collectState rt collector).1 (collectState rt collector).2.length = .ok rawW →
    Suitable s.agent (collectState rt collector).1 (collectState rt collector).2 rawW

def Control.Meets (s : Control F) : List (ControlEvent F) → Prop
  | [] => True
  | e :: es => s.Suits e ∧ ∀ t outcome, s.exec e = .ok (t, outcome) → t.Meets es

omit [GoRoots F] in
theorem collectedLayout (rt : Nat → Runtime) {collector : Option (Collector F)}
    (some_ : (collectState rt collector).2 ≠ []) : (collectState rt collector).1.length =
      8 * (collectState rt collector).2.length + 4 := by
  cases collector with
  | none => contradiction
  | some snap =>
    have ids := collectIdsPerm rt snap
    have keyed : snap.keys ≠ [] := by
      intro empty
      rw [empty] at ids
      exact some_ ids.eq_nil
    rw [collectStateLength rt keyed, ids.length_eq]

/-- An event that is no step of the agent has nothing to suit. -/
theorem quietSuits {s t : Control F} {e : ControlEvent F} {outcome : Option (Outcome F)}
    (quiet : ∀ rt collector wait, e ≠ .step rt collector wait) (taken : s.exec e = .ok (t, outcome)) :
    (∃ t outcome, s.exec e = .ok (t, outcome) ∧ Lengths e outcome) ↔ s.Suits e :=
  iff_of_true ⟨t, outcome, taken, fun rt collector wait _ same => absurd same (quiet rt collector wait)⟩
    fun rt collector wait _ same => absurd same (quiet rt collector wait)

theorem idleSuits {s : Control F} {rt : Nat → Runtime} {collector : Option (Collector F)} (wait : Wait)
    (empty : (collectState rt collector).2 = []) :
    (∃ t outcome, s.exec (.step rt collector wait) = .ok (t, outcome) ∧ Lengths (.step rt collector wait) outcome) ↔
      s.Suits (.step rt collector wait) := by
  refine iff_of_true ⟨s, none, ?_, fun _ _ _ _ _ none_ => ?_⟩ fun _ _ _ _ same some_ => ?_
  · simp [Control.exec, empty]
  · contradiction
  · cases same
    exact absurd empty some_

theorem askedSuits {s : Control F} {rt : Nat → Runtime} {collector : Option (Collector F)} (wait : Wait)
    {state : List F} {ids : List UInt32} (collected : collectState rt collector = (state, ids)) (some_ : ids ≠ []) :
    (∃ t outcome, s.exec (.step rt collector wait) = .ok (t, outcome) ∧ Lengths (.step rt collector wait) outcome) ↔
      s.Suits (.step rt collector wait) := by
  have listed : ids.length ≠ 0 := fun zero => some_ (List.length_eq_zero_iff.mp zero)
  have layout : state.length = 8 * ids.length + 4 := by
    have present : (collectState rt collector).2 ≠ [] := by rwa [collected]
    have whole := collectedLayout rt present
    rwa [collected] at whole
  obtain ⟨rawW, raw, _⟩ := rawWeightsLength s.agent wait listed layout
  have step := stepFromExact s.agent (fun k => rt (k + 2)) s.ring state ids rawW
  have asked : s.agent.rawFrom state ids.length (.asked wait) = .ok rawW := raw
  simp only [Control.exec, collected, if_neg listed, asked, bind, Except.bind]
  constructor
  · rintro ⟨t, outcome, taken, lengths⟩ _ _ _ rawW' same _ raw'
    cases same
    simp only [collected] at raw' ⊢
    cases raw.symm.trans raw'
    refine step.mp ?_
    cases stepped : s.agent.stepFrom (fun k => rt (k + 2)) s.ring state ids rawW none with
    | error p =>
      rw [stepped] at taken
      contradiction
    | ok r =>
      rw [stepped] at taken
      cases taken
      refine ⟨r, rfl, fun w applied => ?_⟩
      have length := lengths _ _ _ w rfl (congrArg some applied)
      rwa [collected] at length
  · intro suits
    have suitable := suits rt collector wait rawW rfl (by rw [collected]; exact some_)
      (by rw [collected]; exact raw)
    rw [collected] at suitable
    obtain ⟨r, stepped, exact_⟩ := step.mpr suitable
    refine ⟨_, _, by rw [stepped]; rfl, ?_⟩
    intro _ _ _ w same applied
    cases same
    rw [collected]
    exact exact_ w (Option.some.inj applied)

theorem stepSuits (s : Control F) (e : ControlEvent F) :
    (∃ t outcome, s.exec e = .ok (t, outcome) ∧ Lengths e outcome) ↔ s.Suits e := by
  cases e with
  | step rt collector wait =>
    by_cases empty : (collectState rt collector).2 = []
    · exact idleSuits wait empty
    · exact askedSuits wait rfl empty
  | setMode mode manualWeights => exact quietSuits (fun _ _ _ same => by contradiction) rfl
  | hotReload kan => exact quietSuits (fun _ _ _ same => by contradiction) rfl
  | resetProjector => exact quietSuits (fun _ _ _ same => by contradiction) rfl

/-- No step of a run panics or writes a vector of another length exactly when in each of its
steps the raw weights are suitable. -/
theorem boundsExact (s : Control F) (events : List (ControlEvent F)) :
    s.Safely events ↔ s.Meets events := by
  induction events generalizing s with
  | nil => exact Iff.rfl
  | cons e es ih =>
    constructor
    · rintro ⟨t, outcome, taken, lengths, later⟩
      refine ⟨(stepSuits s e).mp ⟨t, outcome, taken, lengths⟩, fun t' outcome' again => ?_⟩
      cases taken.symm.trans again
      exact (ih t).mp later
    · rintro ⟨suits, later⟩
      obtain ⟨t, outcome, taken, lengths⟩ := (stepSuits s e).mpr suits
      exact ⟨t, outcome, taken, lengths, (ih t).mpr (later t outcome taken)⟩

end Roots
/-! ### One weight for two backends -/

def ModelHarmless [GoRoots ℚ] : Prop :=
  ∀ (k : KANActor ℚ) (actionSmoothing : ℚ) (cbf : CBFProjector ℚ) (m : Manager ℚ) events,
    (Control.mk (newAgent actionSmoothing (some k) cbf) m).Safely events

/-- The session answers every row with one vector of one entry. -/
def narrow : KANActor ℚ := ⟨some fun _ => .ok [[1]], true⟩

def twoSeen : Collector ℚ := AList.insert 1 ⟨20, 0, 1, [20]⟩ (AList.insert 2 ⟨20, 0, 1, [20]⟩ ∅)

theorem narrowPanics : ¬ ∃ _ : GoRoots ℚ, ModelHarmless := by
  rintro ⟨_, harmless⟩
  obtain ⟨t, outcome, taken, lengths, _⟩ := harmless narrow (7 / 10) (newCBFProjector (1 / 2) (4 / 5))
    (RingManager.newManager (Config.load {})) [.step (fun _ => .plain) (some twoSeen) .answered]
  have suits := (stepSuits _ _).mp ⟨t, outcome, taken, lengths⟩
  have two : (collectState (fun _ => .plain) (some twoSeen)).2.length = 2 :=
    (collectIdsPerm _ twoSeen).length_eq
  have some_ : (collectState (fun _ => .plain) (some twoSeen)).2 ≠ [] := by
    intro empty
    rw [empty] at two
    contradiction
  have suitable := suits _ _ _ (softmax64 [1]) rfl some_ rfl
  have wrong : (softmax64 [(1 : ℚ)]).length ≠ (collectState (fun _ => .plain) (some twoSeen)).2.length := by
    rw [softmaxLength, two]
    decide
  rcases suitable with frozen | ⟨_, same | held⟩
  · rcases (mismatchFreezes _ _ wrong).mp frozen with before | ⟨_, twice⟩
    · contradiction
    · exact absurd twice (by decide)
  · exact wrong same
  · obtain ⟨⟨prev, before, _⟩, _⟩ := held
    contradiction

end OmegaLb.Rl
