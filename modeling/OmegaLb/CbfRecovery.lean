import OmegaLb.CbfProjector
import OmegaLb.StepRun

/-! The failure recovery of cbf.go over any sequence of calls: the counter, the flag and the
stored vector against a history of what the calls answered. -/
namespace OmegaLb.CbfProjector
open StepRun (Run Guarded Answers)

variable {F : Type} [GoMath F]

inductive Call (F : Type) where
  | project (rawW state : List F) (backends : List (CBFBackendState F))
  | reset

abbrev Answer (F : Type) := Option (List F × Option (CBFError F))

def CBFProjector.call (c : CBFProjector F) : Call F → CBFProjector F × Answer F
  | .project rawW state backends =>
    let (next, w, err) := c.project rawW state backends
    (next, some (w, err))
  | .reset => (c.reset, none)

/-! ### The history of the calls, newest last -/

def countFailures (failures : Nat) : Call F × Answer F → Nat
  | (_, some (_, some _)) => failures + 1
  | (_, some (_, none)) => 0
  | (_, none) => 0

/-- The failing calls since the last one that succeeded or the last Reset. -/
def failuresSince (history : List (Call F × Answer F)) : Nat := history.foldl countFailures 0

def keepSuccess (last : Option (List F)) : Call F × Answer F → Option (List F)
  | (_, some (w, none)) => some w
  | (_, some (_, some _)) => last
  | (_, none) => last

def lastSuccess (history : List (Call F × Answer F)) : Option (List F) :=
  history.foldl keepSuccess none

def fallback (last : Option (List F)) (n : Nat) : List F :=
  match last with
  | some w => if w.length = n then w else uniformWeights n
  | none => uniformWeights n

def Weighted : Call F × Answer F → Prop
  | (.project rawW _ _, _) => rawW ≠ []
  | (.reset, _) => True

/-! ### One call -/

theorem failSafeSpec (c : CBFProjector F) (rawW : List F) (cause : CBFError F) :
    c.failSafe rawW cause =
      ({ c with
          consecutiveFailures := c.consecutiveFailures + 1,
          frozenMode := decide (3 ≤ c.consecutiveFailures + 1) || c.frozenMode },
        if c.lastSafeW.length = rawW.length then c.lastSafeW else uniformWeights rawW.length,
        some cause) := by
  unfold CBFProjector.failSafe maxConsecutiveFails
  by_cases third : 3 ≤ c.consecutiveFailures + 1
  · by_cases same : c.lastSafeW.length = rawW.length <;> simp [third, same]
  · by_cases same : c.lastSafeW.length = rawW.length <;> simp [third, same]

inductive Projected (c : CBFProjector F) (rawW : List F) :
    CBFProjector F × List F × Option (CBFError F) → Prop where
  | success (w : List F) : Projected c rawW
      ({ c with lastSafeW := w, consecutiveFailures := 0, frozenMode := false }, w, none)
  | failed (cause : CBFError F) : Projected c rawW
      ({ c with
          consecutiveFailures := c.consecutiveFailures + 1,
          frozenMode := decide (3 ≤ c.consecutiveFailures + 1) || c.frozenMode },
        if c.lastSafeW.length = rawW.length then c.lastSafeW else uniformWeights rawW.length,
        some cause)

theorem projectProjected (c : CBFProjector F) {rawW : List F} (nonempty : rawW ≠ [])
    (state : List F) (backends : List (CBFBackendState F)) :
    Projected c rawW (c.project rawW state backends) := by
  have some_ : rawW.length ≠ 0 := fun zero => nonempty (List.length_eq_zero_iff.mp zero)
  unfold CBFProjector.project
  simp only [if_neg some_, failSafeSpec]
  split
  · exact .failed _
  · split
    · exact .failed _
    · split
      · exact .failed _
      · exact .success _

theorem answersProject {c next : CBFProjector F} {rawW state : List F}
    {backends : List (CBFBackendState F)} {answer : Answer F}
    (answered : Answers CBFProjector.call c (.project rawW state backends, answer) next) :
    ∃ w err, answer = some (w, err) ∧ c.project rawW state backends = (next, w, err) := by
  simp only [Answers, CBFProjector.call, Prod.mk.injEq] at answered
  obtain ⟨rfl, rfl⟩ := answered
  exact ⟨_, _, rfl, rfl⟩

/-! ### Every run -/

structure Tracks (history : List (Call F × Answer F)) (c : CBFProjector F) : Prop where
  stored : c.lastSafeW = (lastSuccess history).getD []
  counted : c.consecutiveFailures = failuresSince history
  flagged : c.frozenMode = decide (3 ≤ failuresSince history)

theorem callTracks {history : List (Call F × Answer F)} {c next : CBFProjector F}
    {e : Call F × Answer F} (tracks : Tracks history c) (weighted : Weighted e)
    (answered : Answers CBFProjector.call c e next) : Tracks (history ++ [e]) next := by
  obtain ⟨stored, counted, flagged⟩ := tracks
  have failures : failuresSince (history ++ [e]) = countFailures (failuresSince history) e := by
    simp [failuresSince]
  have success : lastSuccess (history ++ [e]) = keepSuccess (lastSuccess history) e := by
    simp [lastSuccess]
  obtain ⟨asked, answer⟩ := e
  cases asked with
  | reset =>
    obtain ⟨rfl, rfl⟩ := Prod.mk.inj answered
    exact ⟨success ▸ stored, by rw [failures]; rfl, by rw [failures]; rfl⟩
  | project rawW state backends =>
    have projected := projectProjected c weighted state backends
    obtain ⟨w, err, rfl, out⟩ := answersProject answered
    rw [out] at projected
    cases projected with
    | success w => exact ⟨by rw [success]; rfl, by rw [failures]; rfl, by rw [failures]; rfl⟩
    | failed cause =>
      refine ⟨by rw [success]; exact stored, by rw [failures]; simp [countFailures, counted], ?_⟩
      rw [failures]
      simp only [countFailures, counted, flagged]
      grind

theorem runTracks {lambda capPct : F} {history : List (Call F × Answer F)} {c : CBFProjector F}
    (run : Run (Guarded (fun _ e => Weighted e) (Answers CBFProjector.call))
      (newCBFProjector lambda capPct) history c) : Tracks history c := by
  have start : Tracks [] (newCBFProjector lambda capPct) := ⟨rfl, rfl, rfl⟩
  have preserved : ∀ (before : List (Call F × Answer F)) s e t, Tracks before s →
      Guarded (fun _ e => Weighted e) (Answers CBFProjector.call) s e t → Tracks (before ++ [e]) t :=
    fun _ _ _ _ tracks taken => callTracks tracks taken.1 taken.2
  exact StepRun.runTrace preserved run [] start

theorem fallbackStored {last : Option (List F)} {n : Nat} (some_ : n ≠ 0) :
    (if (last.getD []).length = n then last.getD [] else uniformWeights n) = fallback last n := by
  cases last with
  | none => exact if_neg some_.symm
  | some w => rfl

theorem failureRecovery {lambda capPct : F} {history : List (Call F × Answer F)} {c : CBFProjector F}
    (run : Run (Guarded (fun _ e => Weighted e) (Answers CBFProjector.call))
      (newCBFProjector lambda capPct) history c) :
    (c.isFrozen = true ↔ 3 ≤ failuresSince history) ∧
      ∀ rawW state backends, rawW ≠ [] →
        ∃ next w err, c.project rawW state backends = (next, w, err) ∧
          (err ≠ none → w.length = rawW.length ∧ w = fallback (lastSuccess history) rawW.length) ∧
          (err = none → next.isFrozen = false) := by
  have tracks := runTracks run
  refine ⟨by rw [CBFProjector.isFrozen, tracks.flagged, decide_eq_true_eq], ?_⟩
  intro rawW state backends nonempty
  have some_ : rawW.length ≠ 0 := fun zero => nonempty (List.length_eq_zero_iff.mp zero)
  have projected := projectProjected c nonempty state backends
  obtain ⟨⟨next, w, err⟩, out⟩ : ∃ o, c.project rawW state backends = o := ⟨_, rfl⟩
  rw [out] at projected
  refine ⟨next, w, err, out, ?_⟩
  cases projected with
  | success w => exact ⟨fun failed => absurd rfl failed, fun _ => rfl⟩
  | failed cause =>
    rw [tracks.stored, fallbackStored some_]
    refine ⟨fun _ => ⟨?_, rfl⟩, fun none_ => by contradiction⟩
    unfold fallback
    split
    · split
      · assumption
      · exact List.length_replicate
    · exact List.length_replicate

/-! ### Three mismatches and a recovery -/

def idle (id : UInt32) : CBFBackendState ℚ := ⟨id, 0⟩

def driftCalls : List (Call ℚ) :=
  [.project [1 / 2, 1 / 2] [] [idle 1, idle 2], .project [1, 0] [] [idle 1], .project [1, 0, 0] [] [],
    .project [0, 1] [] [idle 1, idle 2, idle 3]]

theorem driftRecovered :
    (StepRun.perform CBFProjector.call (newCBFProjector 0 0) driftCalls).2.isFrozen = true ∧
      (fallback (lastSuccess (StepRun.perform CBFProjector.call (newCBFProjector (0 : ℚ) 0) driftCalls).1)
        2) = [1 / 2, 1 / 2] ∧
      ∃ next w err, (StepRun.perform CBFProjector.call (newCBFProjector (0 : ℚ) 0) driftCalls).2.project
        [1, 0] [] [idle 1] = (next, w, err) ∧ (err ≠ none → w = [1 / 2, 1 / 2]) := by
  have allowed : StepRun.Allowed (fun _ e => Weighted e) CBFProjector.call (newCBFProjector (0 : ℚ) 0)
      driftCalls := by
    simp [StepRun.Allowed, driftCalls, Weighted]
  obtain ⟨frozen, projects⟩ := failureRecovery (StepRun.performRun allowed)
  have stored : fallback (lastSuccess (StepRun.perform CBFProjector.call (newCBFProjector (0 : ℚ) 0)
      driftCalls).1) 2 = [1 / 2, 1 / 2] := by decide +kernel
  refine ⟨frozen.mpr (by decide +kernel), stored, ?_⟩
  obtain ⟨next, w, err, out, failing, _⟩ := projects [1, 0] [] [idle 1] (List.cons_ne_nil _ _)
  exact ⟨next, w, err, out, fun failed => (failing failed).2.trans stored⟩

end OmegaLb.CbfProjector
