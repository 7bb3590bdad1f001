import OmegaLb.AgentBalance

/-! The oscillation gate over runs without failures. It compares the total of the new counts with
the total of the old ones, and what is moved from one backend to another leaves the total alone. -/
namespace OmegaLb.Rl
open CbfProjector
open RingManager (Manager Runtime)
open StepRun (Run Guarded Does)

/-- Half the sum over the backends of what their counts change by. -/
def moved (n : Nat) (prev w : List ℚ) : ℚ :=
  (List.zipWith (fun x y => |(vnodeCount y vnodeBase n - vnodeCount x vnodeBase n : ℚ)|) prev w).sum / 2

def Large (n : Nat) (prev w : List ℚ) : Prop := (totalCount prev n : ℚ) / 10 < moved n prev w

/-- The total of the counts changes by more than 10% as well. -/
def Shows (n : Nat) (prev w : List ℚ) : Prop :=
  (totalCount prev n : ℚ) / 10 < |(totalCount w n - totalCount prev n : ℚ)|

theorem countsPositive {n : Nat} {w : List ℚ} (nonempty : w ≠ []) : 0 < totalCount w n := by
  have least : ∀ x : ℚ, 1 ≤ vnodeCount x vnodeBase n := by
    intro x
    rw [vnodeCountRat]
    exact le_max_right _ _
  induction w with
  | nil => contradiction
  | cons x w ih =>
    have split : totalCount (x :: w) n = vnodeCount x vnodeBase n + totalCount w n := rfl
    have head := least x
    cases w with
    | nil =>
      have none_ : totalCount ([] : List ℚ) n = 0 := rfl
      omega
    | cons y rest =>
      have tail := ih (List.cons_ne_nil _ _)
      omega

theorem showsExact {n : Nat} {prev w : List ℚ} (positive : 0 < totalCount prev n) :
    |((totalCount w n - totalCount prev n : Int) : ℚ)| / totalCount prev n ≤ 1 / 10 ↔
      ¬ Shows n prev w := by
  have above : (0 : ℚ) < totalCount prev n := by exact_mod_cast positive
  rw [Shows, not_lt, div_le_iff₀ above]
  push_cast
  constructor <;> intro bound <;> linarith

section Roots
variable [GoRoots ℚ]

def Agrees (held w : List ℚ) : Prop := ∃ d, l2dist held w = .ok d ∧ d < 2 / 100

def Unfailing (n : Nat) (s : Loop) : LoopEvent → Prop
  | .step _ state weights failure => failure = none ∧
    ∀ rawW, s.agent.rawFrom state n weights = .ok rawW → rawW.length = n
  | .setMode _ _ => True
  | .hotReload _ => True
  | .resetProjector => True

/-- A large move was held back in the step before. -/
def Confirmed (n : Nat) (s : Loop) (e : LoopEvent) (t : Loop) : Prop :=
  ∀ rt state weights failure, e = .step rt state weights failure →
    ∀ prev w, s.agent.prevAppliedW = some prev → t.last = some (.applied w) → Large n prev w →
      ∃ held, s.last = some (.held held) ∧ Agrees held w

/-- A move that the total hides agrees with a vector that is held back already. -/
def Visible (ids : List UInt32) (s : Loop) (e : LoopEvent) : Prop :=
  ∀ rt state weights failure, e = .step rt state weights failure →
    ∀ rawW prev, s.agent.rawFrom state ids.length weights = .ok rawW →
      s.agent.prevAppliedW = some prev →
      Large ids.length prev (s.agent.candidate state ids rawW) →
      Shows ids.length prev (s.agent.candidate state ids rawW) ∨
        ∃ held, s.agent.pendingW = some held ∧ Agrees held (s.agent.candidate state ids rawW)

/-! ### The verdict of the gate -/

theorem agreesVerdict {a : Agent ℚ} {w : List ℚ}
    (aligned : ∀ held, a.pendingW = some held → held.length = w.length) :
    ∃ b, a.agrees w = .ok b ∧ (b = true ↔ ∃ held, a.pendingW = some held ∧ Agrees held w) := by
  unfold Agent.agrees
  cases pending : a.pendingW with
  | none => exact ⟨false, rfl, by simp⟩
  | some held =>
    obtain ⟨d, measured⟩ := l2distReturns (aligned held pending).le
    refine ⟨decide (d < 2 / 100), ?_, ?_⟩
    · simp only [measured, bind, Except.bind]
      norm_num [pure, Except.pure]
    · simp [Agrees, measured]

def Backed (a : Agent ℚ) (w : List ℚ) : Prop := ∃ held, a.pendingW = some held ∧ Agrees held w

structure Ready (n : Nat) (a : Agent ℚ) : Prop where
  smoothed : ∀ w, a.prevW = some w → w.length = n
  applied : ∀ w, a.prevAppliedW = some w → w.length = n
  pending : ∀ w, a.pendingW = some w → w.length = n
  counted : a.pendingW ≠ none → 1 ≤ a.pendingAgreements
  first : a.prevAppliedW = none → a.pendingW = none

section Verdict
variable {n : Nat} {a : Agent ℚ} {prev w : List ℚ}

theorem gateLarge (some_ : n ≠ 0) (ready : Ready n a) (held : a.prevAppliedW = some prev)
    (aligned : w.length = n) :
    (¬ Shows n prev w → a.shouldApplyWeights w n = .ok (a.clearPending, true)) ∧
      (Shows n prev w → a.shouldApplyWeights w n = a.holdLarge w) := by
  have length := ready.applied prev held
  have same : prev.length = w.length := length.trans aligned.symm
  have positive : 0 < totalCount prev n := countsPositive fun empty => some_ (by
    rw [← length, empty, List.length_nil])
  have exact_ := showsExact (w := w) positive
  unfold Agent.shouldApplyWeights
  simp only [held, same, ne_eq, not_true, if_false, positive.ne', ratOfInt, ratAbs, ratLe, ratLit,
    decide_eq_true_eq, show (0.10 : ℚ) = 1 / 10 by norm_num]
  exact ⟨fun hidden => if_pos (exact_.mpr hidden), fun shows_ => if_neg fun within => exact_.mp within shows_⟩

theorem holdBacked (ready : Ready n a) (aligned : w.length = n) :
    (Backed a w → a.holdLarge w = .ok (a.clearPending, true)) ∧
      (¬ Backed a w → a.holdLarge w =
        .ok ({ a with pendingW := some w, pendingAgreements := 1 }, false)) := by
  obtain ⟨b, agreed, exact_⟩ := agreesVerdict (a := a) (w := w) fun pending known =>
    (ready.pending pending known).trans aligned.symm
  constructor
  · intro backed
    obtain ⟨pending, known, near⟩ := backed
    have yes : b = true := exact_.mpr ⟨pending, known, near⟩
    have counted : requiredAgreements ≤ a.pendingAgreements + 1 := by
      have one := ready.counted (by simp [known])
      unfold requiredAgreements
      omega
    simp only [Agent.holdLarge, agreed, yes, bind, Except.bind, if_true, ge_iff_le,
      if_pos counted]
    rfl
  · intro new
    have refused : b = false := Bool.eq_false_iff.mpr fun yes => new (exact_.mp yes)
    simp only [Agent.holdLarge, agreed, refused, bind, Except.bind]
    rfl

end Verdict

/-! ### One step -/

structure Remembers (n : Nat) (s : Loop) : Prop where
  ready : Ready n s.agent
  held : ∀ w, s.agent.pendingW = some w ↔ s.last = some (.held w)

theorem candidateLength {a : Agent ℚ} {ids : List UInt32} (some_ : ids.length ≠ 0)
    (smoothed : ∀ w, a.prevW = some w → w.length = ids.length) (state : List ℚ) {rawW : List ℚ}
    (counted : rawW.length = ids.length) : (a.candidate state ids rawW).length = ids.length := by
  have projected : (a.projection state ids rawW none).2.1.length = ids.length :=
    (projectionIterate a some_ state counted).1.aligned.trans counted
  unfold Agent.candidate Agent.smooth
  split
  · exact projected
  · rename_i prev before
    split
    · exact projected
    · rw [List.length_zipWith, projected, smoothed prev before, min_self]

/-- What a step makes of its candidate. -/
inductive Verdict (s : Loop) (w : List ℚ) (n : Nat) : Loop → Prop where
  | first {t : Loop} (fresh : s.agent.prevAppliedW = none) (last : t.last = some (.applied w)) :
      Verdict s w n t
  | passed {t : Loop} {prev : List ℚ} (before : s.agent.prevAppliedW = some prev)
      (open_ : ¬ Shows n prev w ∨ Backed s.agent w) (last : t.last = some (.applied w)) : Verdict s w n t
  | kept {t : Loop} {prev : List ℚ} (before : s.agent.prevAppliedW = some prev)
      (shows_ : Shows n prev w) (new : ¬ Backed s.agent w) (last : t.last = some (.held w)) :
      Verdict s w n t

omit [GoRoots ℚ] in
theorem appliedRemembers {n : Nat} {a : Agent ℚ} {w : List ℚ} (aligned : w.length = n)
    (smoothed : a.prevW = some w) (applied : a.prevAppliedW = some w) (idle : a.pendingW = none)
    (m : Manager ℚ) (projected : Option (List ℚ)) :
    Remembers n ⟨a, m, projected, some (.applied w)⟩ where
  ready := by
    constructor
    · exact fun v same => Option.some.inj (smoothed.symm.trans same) ▸ aligned
    · exact fun v same => Option.some.inj (applied.symm.trans same) ▸ aligned
    · exact fun v same => by rw [idle] at same; contradiction
    · exact fun busy => absurd idle busy
    · exact fun _ => idle
  held := fun v => by simp [idle]

theorem takeVerdict {ids : List UInt32} (some_ : ids.length ≠ 0) {s : Loop}
    (remembers : Remembers ids.length s) (rt : Nat → Runtime) {state : List ℚ} {weights : Weights ℚ}
    {rawW : List ℚ} (raw : s.agent.rawFrom state ids.length weights = .ok rawW)
    (counted : rawW.length = ids.length) : ∃ t, s.take rt state ids weights none = .ok t ∧
      Remembers ids.length t ∧ Verdict s (s.agent.candidate state ids rawW) ids.length t := by
  have ready := remembers.ready
  have aligned := candidateLength some_ ready.smoothed state counted
  have running := projectionRuns s.agent some_ state counted
  simp only [Loop.take, raw, bind, Except.bind, Agent.stepFrom, running, Bool.false_eq_true, if_false]
  rw [← Agent.candidate]
  generalize s.agent.candidate state ids rawW = w at aligned
  have next : Ready ids.length { s.agent with
      ood := s.agent.ood.observe state
      cbf := (s.agent.projection state ids rawW none).1
      prevW := some w } :=
    ⟨fun v same => Option.some.inj same ▸ aligned, ready.applied, ready.pending, ready.counted, ready.first⟩
  rcases Option.eq_none_or_eq_some s.agent.prevAppliedW with before | ⟨prev, before⟩
  · obtain ⟨m', _, settled⟩ := settleOpen (gateFirst (a := { s.agent with
      ood := s.agent.ood.observe state
      cbf := (s.agent.projection state ids rawW none).1
      prevW := some w }) before w ids.length) aligned.ge rt s.ring
      (s.agent.projection state ids rawW none).2.1
    rw [settled]
    refine ⟨_, rfl, appliedRemembers aligned rfl rfl ?_ _ _, .first before rfl⟩
    exact ready.first before
  · obtain ⟨hidden, shown⟩ := gateLarge some_ next before aligned
    obtain ⟨backed, fresh⟩ := holdBacked next aligned
    by_cases shows_ : Shows ids.length prev w
    · by_cases known : Backed s.agent w
      · obtain ⟨m', _, settled⟩ := settleOpen ((shown shows_).trans (backed known)) aligned.ge rt s.ring
          (s.agent.projection state ids rawW none).2.1
        rw [settled]
        exact ⟨_, rfl, appliedRemembers aligned rfl rfl rfl _ _, .passed before (.inr known) rfl⟩
      · rw [settleClosed ((shown shows_).trans (fresh known))]
        refine ⟨_, rfl, ⟨⟨next.smoothed, ready.applied, fun v same => Option.some.inj same ▸ aligned,
          fun _ => le_refl _, fun none_ => ?_⟩, fun v => by simp⟩, .kept before shows_ known rfl⟩
        rw [before] at none_
        contradiction
    · obtain ⟨m', _, settled⟩ := settleOpen (hidden shows_) aligned.ge rt s.ring
        (s.agent.projection state ids rawW none).2.1
      rw [settled]
      exact ⟨_, rfl, appliedRemembers aligned rfl rfl rfl _ _, .passed before (.inl shows_) rfl⟩

/-! ### Every run -/

theorem execRemembers {ids : List UInt32} (some_ : ids.length ≠ 0) {s t : Loop} {e : LoopEvent}
    (remembers : Remembers ids.length s) (unfailing : Unfailing ids.length s e)
    (taken : s.exec ids e = some t) : Remembers ids.length t := by
  cases e with
  | step rt state weights failure =>
    obtain ⟨rfl, fits⟩ := unfailing
    have stepped := goReturned taken
    obtain ⟨rawW, raw⟩ := takeRaw stepped
    obtain ⟨_, same, next, _⟩ := takeVerdict some_ remembers rt raw (fits rawW raw)
    cases stepped.symm.trans same
    exact next
  | setMode mode manualWeights =>
    cases taken
    obtain ⟨⟨smoothed, applied, pending, counted, first⟩, held⟩ := remembers
    unfold Agent.setMode
    dsimp only
    split
    · exact ⟨⟨smoothed, applied, pending, counted, first⟩, held⟩
    · exact ⟨⟨smoothed, applied, pending, counted, first⟩, held⟩
  | hotReload kan =>
    cases taken
    obtain ⟨⟨smoothed, applied, pending, counted, first⟩, held⟩ := remembers
    exact ⟨⟨smoothed, applied, pending, counted, first⟩, held⟩
  | resetProjector =>
    cases taken
    obtain ⟨⟨smoothed, applied, pending, counted, first⟩, held⟩ := remembers
    exact ⟨⟨smoothed, applied, pending, counted, first⟩, held⟩

theorem stepConfirmed {ids : List UInt32} (some_ : ids.length ≠ 0) {s t : Loop} {e : LoopEvent}
    (remembers : Remembers ids.length s) (unfailing : Unfailing ids.length s e)
    (taken : s.exec ids e = some t) : Confirmed ids.length s e t ↔ Visible ids s e := by
  cases e with
  | step rt state weights failure =>
    obtain ⟨rfl, fits⟩ := unfailing
    have stepped := goReturned taken
    obtain ⟨rawW, raw⟩ := takeRaw stepped
    obtain ⟨_, same, _, verdict⟩ := takeVerdict some_ remembers rt raw (fits rawW raw)
    cases stepped.symm.trans same
    constructor
    · intro confirmed _ _ _ _ own rawW' prev raw' before large
      cases own
      cases raw.symm.trans raw'
      cases verdict with
      | first fresh last =>
        rw [before] at fresh
        contradiction
      | passed known open_ last =>
        obtain ⟨held, waited, near⟩ := confirmed _ _ _ _ rfl prev _ before last large
        exact .inr ⟨held, (remembers.held held).mpr waited, near⟩
      | kept known shows_ new last =>
        cases before.symm.trans known
        exact .inl shows_
    · intro visible _ _ _ _ own prev w before applied large
      cases own
      cases verdict with
      | first fresh last =>
        rw [before] at fresh
        contradiction
      | passed known open_ last =>
        cases before.symm.trans known
        cases applied.symm.trans last
        have backed : Backed s.agent (s.agent.candidate state ids rawW) := by
          rcases visible _ _ _ _ rfl rawW prev raw before large with shows_ | backed
          · exact open_.resolve_left (not_not.mpr shows_)
          · exact backed
        obtain ⟨held, waiting, near⟩ := backed
        exact ⟨held, (remembers.held held).mp waiting, near⟩
      | kept known shows_ new last => cases applied.symm.trans last
  | setMode mode manualWeights =>
    exact ⟨fun _ _ _ _ _ same => by contradiction, fun _ _ _ _ _ same => by contradiction⟩
  | hotReload kan =>
    exact ⟨fun _ _ _ _ _ same => by contradiction, fun _ _ _ _ _ same => by contradiction⟩
  | resetProjector =>
    exact ⟨fun _ _ _ _ _ same => by contradiction, fun _ _ _ _ _ same => by contradiction⟩

/-- A run confirms each large move before it is made exactly when none of its candidates moves
more than 10% of the vnodes without its total showing it. -/
theorem gateExact {ids : List UInt32} (some_ : ids ≠ []) (actionSmoothing : ℚ)
    (kan : Option (KANActor ℚ)) (lambda capPct : ℚ) (m : Manager ℚ) (events : List LoopEvent) (s : Loop) :
    Run (fun s e t => Guarded (Unfailing ids.length) (Does (Loop.exec ids)) s e t ∧
        Confirmed ids.length s e t)
      (newLoop actionSmoothing kan (newCBFProjector lambda capPct) m) events s ↔
    Run (Guarded (Visible ids) (Guarded (Unfailing ids.length) (Does (Loop.exec ids))))
      (newLoop actionSmoothing kan (newCBFProjector lambda capPct) m) events s := by
  have nonzero : ids.length ≠ 0 := fun zero => some_ (List.length_eq_zero_iff.mp zero)
  have start : Remembers ids.length (newLoop actionSmoothing kan (newCBFProjector lambda capPct) m) := by
    refine ⟨⟨?_, ?_, ?_, ?_, ?_⟩, ?_⟩ <;> simp [newLoop, newAgent]
  refine StepRun.eachGuarded ?_ ?_ start
  · exact fun _ _ _ remembers taken => execRemembers nonzero remembers taken.1 taken.2
  · exact fun _ _ _ remembers taken => stepConfirmed nonzero remembers taken.1 taken.2

/-- With a smoothing between 0 and 1 the gate holds nothing back, whatever the run. -/
theorem runNeverHolds {ids : List UInt32} (some_ : ids ≠ []) (distinct : ids.Nodup) {s t : Loop}
    (balanced : Balanced ids s) (idle : ∀ w, s.last ≠ some (.held w)) {events : List LoopEvent}
    (run : Run (Guarded (Fits ids.length) (Does (Loop.exec ids))) s events t) :
    ∀ w, t.last ≠ some (.held w) := by
  have nonzero : ids.length ≠ 0 := fun zero => some_ (List.length_eq_zero_iff.mp zero)
  have preserved : ∀ (u : Loop) e v, (Balanced ids u ∧ ∀ w, u.last ≠ some (.held w)) →
      Fits ids.length u e → Does (Loop.exec ids) u e v →
      Balanced ids v ∧ ∀ w, v.last ≠ some (.held w) := by
    rintro u e v ⟨balanced, idle⟩ fits taken
    refine ⟨execBalanced nonzero distinct balanced fits taken, ?_⟩
    cases e with
    | step rt state weights failure =>
      have stepped := goReturned taken
      obtain ⟨rawW, raw⟩ := takeRaw stepped
      obtain ⟨_, same, advances⟩ := takeAdvances nonzero balanced rt raw (fits rawW raw) failure
      cases stepped.symm.trans same
      cases advances with
      | frozen halted => simp
      | applied running smoothed written pending => simp
    | setMode mode manualWeights =>
      cases taken
      exact idle
    | hotReload kan =>
      cases taken
      exact idle
    | resetProjector =>
      cases taken
      exact idle
  exact (StepRun.guardedInvariant preserved run ⟨balanced, idle⟩).2

end Roots

/-! ### Half of the vnodes in one step -/

def GateConfirms [GoRoots ℚ] : Prop :=
  ∀ (ids : List UInt32) actionSmoothing kan lambda capPct m events s e t, ids ≠ [] → ids.Nodup →
    (∀ id ∈ ids, id ∈ (m : Manager ℚ).backends) →
    Run (Guarded (Unfailing ids.length) (Does (Loop.exec ids)))
      (newLoop actionSmoothing kan (newCBFProjector lambda capPct) m) events s →
    Unfailing ids.length s e → s.exec ids e = some t → Confirmed ids.length s e t

theorem heldProject {c : CBFProjector ℚ} (cap : c.capPct = 4 / 5) (state : List ℚ) {x y : ℚ}
    (fits : x ≤ 4 / 5 ∧ y ≤ 4 / 5) (point : projectOntoSimplex [x, y] = [x, y]) :
    c.project [x, y] state ([1, 2].map fun id => CBFBackendState.mk id (GoFloat.lit 0)) =
      ({ c with lastSafeW := [x, y], consecutiveFailures := 0, frozenMode := false }, [x, y], none) := by
  have still : c.violated ([1, 2].map fun id => CBFBackendState.mk id (GoFloat.lit 0)) [x, y] = false := by
    simp [CBFProjector.violated, CBFProjector.slack, cap, fits]
  rw [projectDescends c state rfl (List.cons_ne_nil _ _), point, maxIter, CBFProjector.descend, still]
  rfl

structure Unsmoothed (s : Loop) : Prop where
  balanced : Balanced [1, 2] s
  cap : s.agent.cbf.capPct = 4 / 5
  smoothing : s.agent.actionSmoothing = 0
  score : s.agent.ood.dim = 64

/-- What the collector makes of two new backends. -/
def quiet : List ℚ := List.replicate 20 0

def manualStep : LoopEvent := .step (fun _ => .plain) quiet (.asked .answered) none

/-- A state of another length scores nothing, and the model has the whole weight. -/
theorem nominalWeight [GoRoots ℚ] {a : Agent ℚ} {state : List ℚ} (other : state.length ≠ a.ood.dim)
    (smoothing : a.actionSmoothing = 0) (limit : 0 ≤ a.ood.threshold) : a.modelWeight state = 1 := by
  rw [Agent.modelWeight, scoreOtherLength other, smoothing, OODDetector.actionWeight, ratLe]
  norm_num [limit]

theorem smoothWhole (a : Agent ℚ) (w : List ℚ) : a.smooth 1 w = w := by
  unfold Agent.smooth
  split
  · rfl
  · rename_i prev before
    split
    · rfl
    · rename_i same
      have kept : (fun safe prev : ℚ => 1 * safe + (GoFloat.lit 1 - 1) * prev) = fun safe _ => safe := by
        funext safe prev
        simp
      rw [kept, ← List.map_uncurry_zip_eq_zipWith]
      exact List.map_fst_zip (not_not.mp same).ge

theorem manualApplies [GoRoots ℚ] {s : Loop} (unsmoothed : Unsmoothed s) {x y : ℚ}
    (fits : x ≤ 4 / 5 ∧ y ≤ 4 / 5) (point : projectOntoSimplex [x, y] = [x, y]) :
    let chosen := { s with agent := s.agent.setMode .manual [x, y] }
    Unfailing 2 chosen manualStep ∧ ∃ t, chosen.exec [1, 2] manualStep = some t ∧ Unsmoothed t ∧
      t.last = some (.applied [x, y]) ∧ t.agent.prevAppliedW = some [x, y] := by
  intro chosen
  obtain ⟨balanced, cap, smoothing, score⟩ := unsmoothed
  have manual : chosen.agent.rawFrom quiet 2 (.asked .answered) = .ok [x, y] := rfl
  have unfailing : Unfailing 2 chosen manualStep := by
    refine ⟨rfl, fun rawW raw => ?_⟩
    cases manual.symm.trans raw
    rfl
  have chosenBalanced : Balanced [1, 2] chosen :=
    execBalanced (e := .setMode .manual [x, y]) (by simp) (by simp) balanced trivial rfl
  obtain ⟨t, taken, advances⟩ := takeAdvances (by simp) chosenBalanced (fun _ => .plain) manual rfl none
  have next := takeBalanced (by simp) (by simp) chosenBalanced unfailing.2 taken
  have projected : chosen.agent.projection quiet [1, 2] [x, y] none =
      ({ s.agent.cbf with lastSafeW := [x, y], consecutiveFailures := 0, frozenMode := false }, [x, y],
        none) := heldProject cap quiet fits point
  have other : quiet.length ≠ chosen.agent.ood.dim := by
    intro same
    have dim : chosen.agent.ood.dim = 64 := score
    exact absurd (same.trans dim) (by decide)
  have trusted := nominalWeight (a := chosen.agent) other smoothing chosenBalanced.limit.le
  rw [projected] at advances
  refine ⟨unfailing, t, congrArg Except.toOption taken, ?_⟩
  cases advances with
  | frozen halted => exact absurd halted Bool.false_ne_true
  | applied running smoothed written pending =>
    rw [trusted, smoothWhole] at smoothed
    subst smoothed
    refine ⟨⟨next, cap, smoothing, ?_⟩, rfl, rfl⟩
    exact (congrArg OODDetector.dim (observeOtherLength other)).trans score

theorem unsmoothedStart : Unsmoothed (newLoop 0 none (newCBFProjector 0 0) pair) := by
  have cap : (newCBFProjector (0 : ℚ) 0).capPct = 4 / 5 := by decide +kernel
  exact ⟨newLoopBalanced (le_refl 0) zero_le_one (by simp) none 0 0 pairKnown, cap, rfl, rfl⟩

/-- Weights 3/4 and 1/4 are exchanged by the operator: 150 of the 300 vnodes move in one step. -/
theorem exchangeUnconfirmed : ¬ ∃ _ : GoRoots ℚ, GateConfirms := by
  rintro ⟨_, confirms⟩
  obtain ⟨early, s, first, unsmoothed, applied, before⟩ :=
    manualApplies unsmoothedStart (x := 3 / 4) (y := 1 / 4) (by norm_num) (by decide +kernel)
  obtain ⟨late, t, second, _, exchanged, _⟩ :=
    manualApplies unsmoothed (x := 1 / 4) (y := 3 / 4) (by norm_num) (by decide +kernel)
  have run : Run (Guarded (Unfailing 2) (Does (Loop.exec [1, 2])))
      (newLoop 0 none (newCBFProjector 0 0) pair)
      [.setMode .manual [3 / 4, 1 / 4], manualStep, .setMode .manual [1 / 4, 3 / 4]] _ :=
    .cons ⟨trivial, rfl⟩ (.cons ⟨early, first⟩ (.cons ⟨trivial, rfl⟩ (.nil _)))
  obtain ⟨held, waiting, _⟩ := confirms [1, 2] 0 none 0 0 pair _ _ _ t (List.cons_ne_nil _ _) (by simp)
    pairKnown run late second _ _ _ _ rfl _ _ before exchanged (by unfold Large; decide +kernel)
  cases applied.symm.trans waiting

/-! ### A large move that was held back first -/

section Told
variable [GoRoots ℚ]

/-- `Visible` and `Unfailing` as the states of one run tell them. -/
def told (ids : List UInt32) (s : Loop) : LoopEvent → Bool
  | .step _ state weights failure =>
    failure.isNone && match s.agent.rawFrom state ids.length weights with
      | .error _ => true
      | .ok rawW => rawW.length == ids.length && match s.agent.prevAppliedW with
        | none => true
        | some prev =>
          let w := s.agent.candidate state ids rawW
          !decide ((totalCount prev ids.length : ℚ) / 10 < moved ids.length prev w) ||
            decide ((totalCount prev ids.length : ℚ) / 10 <
              |(totalCount w ids.length - totalCount prev ids.length : ℚ)|) ||
            (s.agent.agrees w).toOption == some true
  | .setMode _ _ | .hotReload _ | .resetProjector => true

theorem agreesBacked {a : Agent ℚ} {w : List ℚ} (agreed : (a.agrees w).toOption = some true) :
    Backed a w := by
  unfold Agent.agrees at agreed
  cases pending : a.pendingW with
  | none => simp [pending, Except.toOption] at agreed
  | some held =>
    refine ⟨held, pending, ?_⟩
    simp only [pending, bind, Except.bind] at agreed
    cases measured : l2dist held w with
    | error p => simp [measured, Except.toOption] at agreed
    | ok d =>
      have near : d < 0.02 := by simpa [measured, Except.toOption, pure, Except.pure] using agreed
      exact ⟨d, measured, by norm_num at near ⊢; exact near⟩

theorem toldUnfailing {ids : List UInt32} {s : Loop} {e : LoopEvent} (clear : told ids s e = true) :
    Unfailing ids.length s e ∧ Visible ids s e := by
  cases e with
  | step rt state weights failure =>
    simp only [told, Bool.and_eq_true, Option.isNone_iff_eq_none] at clear
    obtain ⟨sound, clear⟩ := clear
    refine ⟨⟨sound, fun rawW raw => ?_⟩, ?_⟩
    · rw [raw] at clear
      exact beq_iff_eq.mp ((Bool.and_eq_true _ _).mp clear).1
    · intro _ _ _ _ own rawW prev raw before large
      cases own
      simp only [raw, before, Bool.and_eq_true, Bool.or_eq_true, Bool.not_eq_true', decide_eq_false_iff_not,
        decide_eq_true_eq, beq_iff_eq] at clear
      obtain ⟨_, (small | shows_) | agreed⟩ := clear
      · exact absurd large small
      · exact .inl shows_
      · exact .inr (agreesBacked agreed)
  | setMode mode manualWeights => exact ⟨trivial, fun _ _ _ _ own => by contradiction⟩
  | hotReload kan => exact ⟨trivial, fun _ _ _ _ own => by contradiction⟩
  | resetProjector => exact ⟨trivial, fun _ _ _ _ own => by contradiction⟩

end Told

def chosenWeights : List LoopEvent :=
  [47 / 50, 1, 19 / 50, 43 / 100, 83 / 100, 1 / 2].flatMap fun x : ℚ =>
    [.setMode .manual [x, 1 - x], manualStep]

/-- A negative smoothing overshoots the simplex, and the totals tell: the move back to halves is held
back, made again within 0.02 of it and applied. -/
theorem heldMoveConfirmed : ∃ (_ : GoRoots ℚ) (s : Loop), s.last = some (.applied [1 / 2, 1 / 2]) ∧
    Run (fun s e t => Guarded (Unfailing 2) (Does (Loop.exec [1, 2])) s e t ∧ Confirmed 2 s e t)
      (newLoop (-1) none (newCBFProjector 0 1) pair) chosenWeights s := by
  let roots : GoRoots ℚ := ⟨id, id⟩
  have done : (StepRun.runGuarded (fun s e => told [1, 2] s e = true) (Loop.exec [1, 2])
      (newLoop (-1) none (newCBFProjector 0 1) pair) chosenWeights).any
        (fun s => decide (s.last = some (.applied [1 / 2, 1 / 2]))) = true := by decide +kernel
  obtain ⟨s, run, applied⟩ := StepRun.runGuardedAny done
  refine ⟨roots, s, of_decide_eq_true applied, ?_⟩
  have some_ : [(1 : UInt32), 2] ≠ [] := List.cons_ne_nil _ _
  refine (gateExact some_ (-1) none 0 1 pair _ s).mpr ?_
  refine StepRun.runWeaken (fun u e v taken => ?_) run
  obtain ⟨unfailing, visible⟩ := toldUnfailing taken.1
  exact ⟨visible, unfailing, taken.2⟩

end OmegaLb.Rl
