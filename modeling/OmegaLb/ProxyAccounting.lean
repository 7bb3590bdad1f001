import OmegaLb.ProxyRetry
import Mathlib.Algebra.Order.BigOperators.Group.List

/-! What MetricsStore counts of the attempts: those in progress, and once each those that are over. -/
namespace OmegaLb.OmegaProxy
open GoText (ascii)
open StepRun (Run Along Guarded Does)

variable {retryIdempotentOnly : Bool} {F : Type}

/-! ### Tallies of attempts -/

def Outcome.isError : Outcome → Bool
  | .responded response => response.isError
  | .failed => true

def Attempt.inProgress (a : Attempt) : Bool := a.outcome.isNone

def Attempt.erred (a : Attempt) : Bool := a.outcome.any Outcome.isError

def tally (backend : Nat) (kind : Attempt → Bool) (tries : List Attempt) : Nat :=
  tries.countP fun a => a.backend = backend ∧ kind a

def World.tally (w : World F) (backend : Nat) (kind : Attempt → Bool) : Nat :=
  (w.calls.map fun c => OmegaProxy.tally backend kind c.attempts).sum

/-- The attempts in progress, and of all that are over how many there are and how many failed. -/
structure Counts (m : MetricsStore) (count : (Attempt → Bool) → Nat) (backend : Nat) : Prop where
  active : m.active backend = count Attempt.inProgress
  totalReq : m.totalReq backend = count (!·.inProgress)
  totalErr : m.totalErr backend = count Attempt.erred

def Balanced (w : World F) : Prop := ∀ backend, Counts w.proxy.metrics (w.tally backend) backend

theorem sumSet {α : Type} (f : α → Nat) {xs : List α} {i : Nat} {x : α} (found : xs[i]? = some x) (y : α) :
    ((xs.set i y).map f).sum + f x = (xs.map f).sum + f y := by
  induction xs generalizing i with
  | nil => cases found
  | cons head rest ih =>
    cases i with
    | zero =>
      cases found
      simp only [List.set_cons_zero, List.map_cons, List.sum_cons]
      omega
    | succ i =>
      have later := ih (i := i) found
      simp only [List.set_cons_succ, List.map_cons, List.sum_cons]
      omega

/-- What the counters gain over what the attempts of one call do. -/
structure Level (m : MetricsStore) (before : List Attempt) (n : MetricsStore) (after : List Attempt)
    (backend : Nat) : Prop where
  active : n.active backend + tally backend Attempt.inProgress before =
    m.active backend + tally backend Attempt.inProgress after
  totalReq : n.totalReq backend + tally backend (!·.inProgress) before =
    m.totalReq backend + tally backend (!·.inProgress) after
  totalErr : n.totalErr backend + tally backend Attempt.erred before =
    m.totalErr backend + tally backend Attempt.erred after

theorem balancedLevel {w : World F} {i : Nat} {c : Handle} {out : Proxy F × Handle} (balanced : Balanced w)
    (found : w.calls[i]? = some c) : Balanced ⟨out.1, w.calls.set i out.2⟩ ↔
      ∀ backend, Level w.proxy.metrics c.attempts out.1.metrics out.2.attempts backend := by
  have moved (backend : Nat) (kind : Attempt → Bool) :
      World.tally ⟨out.1, w.calls.set i out.2⟩ backend kind + tally backend kind c.attempts =
        w.tally backend kind + tally backend kind out.2.attempts :=
    sumSet (fun d : Handle => OmegaProxy.tally backend kind d.attempts) found out.2
  constructor
  · intro after backend
    obtain ⟨active, totalReq, totalErr⟩ := balanced backend
    obtain ⟨active', totalReq', totalErr'⟩ := after backend
    have first := moved backend Attempt.inProgress
    have second := moved backend (!·.inProgress)
    have third := moved backend Attempt.erred
    constructor
    · rw [active', active, first]
    · rw [totalReq', totalReq, second]
    · rw [totalErr', totalErr, third]
  · intro level backend
    obtain ⟨active, totalReq, totalErr⟩ := balanced backend
    obtain ⟨active', totalReq', totalErr'⟩ := level backend
    have first := moved backend Attempt.inProgress
    have second := moved backend (!·.inProgress)
    have third := moved backend Attempt.erred
    rw [active, ← first] at active'
    rw [totalReq, ← second] at totalReq'
    rw [totalErr, ← third] at totalErr'
    exact ⟨Nat.add_right_cancel active', Nat.add_right_cancel totalReq', Nat.add_right_cancel totalErr'⟩

/-! ### What one call does to the counters -/

section Levels
variable {m n k : MetricsStore} {before between after : List Attempt} {backend : Nat}

theorem levelRefl (m : MetricsStore) (tries : List Attempt) (backend : Nat) : Level m tries m tries backend :=
  ⟨rfl, rfl, rfl⟩

theorem levelOnward (second : Level n between k after backend) :
    Level m before k after backend ↔ Level m before n between backend := by
  obtain ⟨active, totalReq, totalErr⟩ := second
  constructor
  · rintro ⟨active', totalReq', totalErr'⟩
    constructor <;> omega
  · rintro ⟨active', totalReq', totalErr'⟩
    constructor <;> omega

theorem tallyCons (a : Attempt) (rest : List Attempt) (kind : Attempt → Bool) :
    tally backend kind (a :: rest) = tally backend kind rest + if a.backend = backend ∧ kind a then 1 else 0 := by
  simp [tally, List.countP_cons]

theorem levelStart (m : MetricsStore) (own : Nat) (healthy : Bool) (tries : List Attempt) (backend : Nat) :
    Level m tries (m.recordRequestStart own) (⟨own, healthy, none⟩ :: tries) backend := by
  by_cases same : own = backend
  · subst same
    constructor <;> simp [tallyCons, MetricsStore.recordRequestStart, Attempt.inProgress, Attempt.erred]
    omega
  · constructor <;> simp [tallyCons, MetricsStore.recordRequestStart, same, Ne.symm same]

theorem levelFinish {own : Nat} (counted : 0 < m.active own) (healthy : Bool) (rest : List Attempt) (o : Outcome)
    (bytes : Nat) (backend : Nat) :
    Level m (⟨own, healthy, none⟩ :: rest) (m.recordRequestEnd own o.isError bytes)
      (⟨own, healthy, some o⟩ :: rest) backend := by
  by_cases same : own = backend
  · subst same
    constructor <;> simp [tallyCons, MetricsStore.recordRequestEnd, Attempt.inProgress, Attempt.erred] <;> omega
  · constructor <;> simp [tallyCons, MetricsStore.recordRequestEnd, same, Ne.symm same]

theorem leakUneven (m : MetricsStore) (own : Nat) (healthy : Bool) (rest : List Attempt) (o : Outcome) :
    ¬ Level m (⟨own, healthy, none⟩ :: rest) m (⟨own, healthy, some o⟩ :: rest) own := by
  intro level
  have active := level.active
  simp [tallyCons, Attempt.inProgress] at active

theorem twiceUneven (m : MetricsStore) (own : Nat) (isError : Bool) (bytes : Nat) (tries : List Attempt) :
    ¬ Level m tries (m.recordRequestEnd own isError bytes) tries own := by
  intro level
  have totalReq := level.totalReq
  simp [MetricsStore.recordRequestEnd] at totalReq

end Levels

def Even (p : Proxy F) (c : Handle) (out : Proxy F × Handle) : Prop :=
  ∀ backend, Level p.metrics c.attempts out.1.metrics out.2.attempts backend

theorem nextEven (c : Handle) (p : Proxy F) (l : Loop) : Even p c (c.next retryIdempotentOnly p l) := by
  intro backend
  unfold Handle.next
  split
  · exact levelStart p.metrics l.backend l.healthy c.attempts backend
  · exact levelRefl _ _ _

theorem caughtFinished (c : Handle) (p : Proxy F) (l : Loop) {raised : Raised} (seen : raised ≠ .cancelled) :
    Even p c (c.caught retryIdempotentOnly p l raised) ↔
      Even p c (p.finish l.backend true 0, c.settle .failed) := by
  cases raised with
  | network text =>
    rcases caughtCases retryIdempotentOnly c p l text with ⟨alt, _, out⟩ | out
    · rw [out]
      exact forall_congr' fun backend => levelOnward (nextEven _ _ _ backend)
    · rw [out]
      exact Iff.rfl
  | other text => exact Iff.rfl
  | cancelled => exact absurd rfl seen

theorem caughtRunning {c : Handle} {p : Proxy F} {l : Loop} (running : Running l c.attempts)
    (counted : 0 < p.metrics.active l.backend) (raised : Raised) :
    Even p c (c.caught retryIdempotentOnly p l raised) ↔ raised ≠ .cancelled := by
  obtain ⟨rest, shape, settled, _⟩ := settleRunning running .failed
  by_cases seen : raised = .cancelled
  · subst seen
    refine iff_of_false (fun even => ?_) (fun differs => differs rfl)
    have level := even l.backend
    simp only [Handle.caught, Handle.settle, settled] at level
    rw [shape] at level
    exact leakUneven _ _ _ _ _ level
  · refine iff_of_true ((caughtFinished c p l seen).mpr fun backend => ?_) seen
    simp only [Handle.settle, settled]
    rw [shape]
    exact levelFinish counted l.healthy rest .failed 0 backend

theorem caughtEnded {c : Handle} {l : Loop} (ended : Ended l c.attempts) (p : Proxy F) (raised : Raised) :
    Even p c (c.caught retryIdempotentOnly p l raised) ↔ raised = .cancelled := by
  have settled := settleOver ended.over_ .failed
  by_cases seen : raised = .cancelled
  · subst seen
    refine iff_of_true (fun backend => ?_) rfl
    simp only [Handle.caught, Handle.settle, settled]
    exact levelRefl _ _ _
  · refine iff_of_false (fun even => ?_) seen
    have level := (caughtFinished c p l seen).mp even l.backend
    simp only [Handle.settle, settled] at level
    exact twiceUneven _ _ _ _ _ level

theorem receivedEven {c : Handle} {p : Proxy F} {l : Loop} (running : Running l c.attempts)
    (counted : 0 < p.metrics.active l.backend) (response : Response) : Even p c (c.received p l response) := by
  obtain ⟨rest, shape, settled, _⟩ := settleRunning running (.responded response)
  have finished : Even p c (p.finish l.backend response.isError response.body.length,
      c.settle (.responded response)) := by
    intro backend
    simp only [Handle.settle, settled]
    rw [shape]
    exact levelFinish counted l.healthy rest (.responded response) _ backend
  rcases receivedCases c p l response with ⟨alt, _, out⟩ | out
  · rw [out]
    exact finished
  · rw [out]
    exact finished

/-- The call does not leave an attempt by CancelledError while it is in progress, and once it is
over the close of its response raises nothing else. -/
def Handle.recorded (c : Handle) (input : Input F) : Bool :=
  match c.phase, input with
  | .requesting _, .raises raised => raised ≠ .cancelled
  | .closing _ (.raise raised), .closed => raised ≠ .cancelled
  | .closing _ (.raise _), .raises raised => raised ≠ .cancelled
  | .closing _ _, .raises raised => raised = .cancelled
  | _, _ => true

theorem arriveEven [GoMath F] (c : Handle) (p : Proxy F) (now : F) : Even p c (c.arrive p now) := by
  intro backend
  obtain ⟨q, same, ⟨_, _, out⟩ | ⟨_, out⟩ | out⟩ := arriveCases c p now
  all_goals
    rw [out, same]
    exact levelRefl _ _ _

theorem resumeEven [GoMath F] {c : Handle} {p : Proxy F} {input : Input F} {out : Proxy F × Handle}
    (sound : Sound retryIdempotentOnly c)
    (counted : ∀ backend, tally backend Attempt.inProgress c.attempts ≤ p.metrics.active backend)
    (resumed : Resumed retryIdempotentOnly c p input out) : Even p c out ↔ c.recorded input := by
  have placed := sound.placed
  have open_ {l : Loop} (running : Running l c.attempts) : 0 < p.metrics.active l.backend := by
    obtain ⟨rest, shape, _⟩ := running.head
    refine Nat.lt_of_lt_of_le ?_ (counted l.backend)
    rw [shape, tallyCons]
    simp [Attempt.inProgress]
  cases resumed with
  | arrives at_ => exact iff_of_true (arriveEven c p _) (by simp [Handle.recorded, at_])
  | begins at_ => exact iff_of_true (nextEven c p _) (by simp [Handle.recorded, at_])
  | bodyLost at_ => exact iff_of_true (fun _ => levelRefl _ _ _) (by simp [Handle.recorded, at_])
  | responds at_ => exact iff_of_true (fun _ => levelRefl _ _ _) (by simp [Handle.recorded, at_])
  | refused at_ =>
    rw [at_] at placed
    simpa [Handle.recorded, at_] using caughtRunning placed (open_ placed) _
  | received at_ =>
    rw [at_] at placed
    exact iff_of_true (receivedEven placed (open_ placed) _) (by simp [Handle.recorded, at_])
  | cut at_ => exact iff_of_true (fun _ => levelRefl _ _ _) (by simp [Handle.recorded, at_])
  | continues at_ => exact iff_of_true (nextEven c p _) (by simp [Handle.recorded, at_])
  | returns at_ => exact iff_of_true (fun _ => levelRefl _ _ _) (by simp [Handle.recorded, at_])
  | leaves at_ =>
    rw [at_] at placed
    simpa [Handle.recorded, at_] using caughtRunning placed (open_ placed) _
  | @disturbed l exit raised at_ =>
    rw [at_] at placed
    cases exit with
    | continue_ => simpa [Handle.recorded, at_] using caughtEnded placed.1 p raised
    | return_ reply => simpa [Handle.recorded, at_] using caughtEnded placed p raised
    | raise first => simpa [Handle.recorded, at_] using caughtRunning placed (open_ placed) raised

/-! ### Runs -/

abbrev AllRecorded : World F → Event F → Prop := EachCall fun _ c input => c.recorded input

theorem tallyWithin {w : World F} {i : Nat} {c : Handle} (found : w.calls[i]? = some c) (backend : Nat)
    (kind : Attempt → Bool) : tally backend kind c.attempts ≤ w.tally backend kind :=
  List.single_le_sum (fun _ _ => Nat.zero_le _) _ (List.mem_map_of_mem (List.mem_of_getElem? found))

theorem stepBalanced [GoMath F] (w : World F) (e : Event F) (t : World F)
    (sound : AllSound retryIdempotentOnly w) (balanced : Balanced w)
    (step : Does (World.step retryIdempotentOnly) w e t) : Balanced t ↔ AllRecorded w e := by
  rcases stepCases retryIdempotentOnly step with
    ⟨i, input, c, out, rfl, found, resumed, rfl⟩ | ⟨outside, calls, active, totalReq, totalErr⟩
  · have counted (backend : Nat) :
        tally backend Attempt.inProgress c.attempts ≤ w.proxy.metrics.active backend :=
      (balanced backend).active ▸ tallyWithin found backend _
    rw [balancedLevel balanced found, AllRecorded, eachCallAt found]
    exact resumeEven (sound c (List.mem_of_getElem? found)) counted resumed
  · refine iff_of_true (fun backend => ?_) (eachOutside outside)
    have tallies : t.tally backend = w.tally backend := by
      funext kind
      rw [World.tally, World.tally, calls]
    obtain ⟨active', totalReq', totalErr'⟩ := balanced backend
    rw [tallies]
    exact ⟨by rw [active, active'], by rw [totalReq, totalReq'], by rw [totalErr, totalErr']⟩

def World.Unused (w : World F) : Prop :=
  ∀ backend, w.proxy.metrics.active backend = 0 ∧ w.proxy.metrics.totalReq backend = 0 ∧
    w.proxy.metrics.totalErr backend = 0

theorem freshBalanced {w : World F} (fresh : w.Fresh) (unused : w.Unused) : Balanced w := by
  intro backend
  have nothing (kind : Attempt → Bool) : w.tally backend kind = 0 := by
    refine List.sum_eq_zero fun count listed => ?_
    obtain ⟨c, inside, rfl⟩ := List.mem_map.mp listed
    obtain ⟨r, rfl⟩ := fresh c inside
    rfl
  obtain ⟨active, totalReq, totalErr⟩ := unused backend
  exact ⟨by rw [active, nothing], by rw [totalReq, nothing], by rw [totalErr, nothing]⟩

theorem accountedExactly [GoMath F] {w t : World F} (fresh : w.Fresh) (unused : w.Unused)
    {events : List (Event F)} : Run (Along Balanced (Does (World.step retryIdempotentOnly))) w events t ↔
      Run (Guarded AllRecorded (Does (World.step retryIdempotentOnly))) w events t :=
  StepRun.alongGuarded stepSound stepBalanced (freshSound fresh) (freshBalanced fresh unused)

theorem twoDownStart (r : Request) : (twoDown r).Fresh ∧ (twoDown r).Unused :=
  ⟨fun _ inside => ⟨r, List.mem_singleton.mp inside⟩, fun _ => ⟨rfl, rfl, rfl⟩⟩

theorem accountedExactlyRetried : ∃ t : World ℚ,
    Run (Along Balanced (Does (World.step true))) (twoDown getRequest) retried t := by
  have ⟨fresh, unused⟩ := twoDownStart getRequest
  have ⟨t, run, _⟩ : ∃ t, Run (Guarded AllRecorded (Does (World.step true))) (twoDown getRequest) retried t ∧
      (fun _ => true) t = true := StepRun.runGuardedAny (by decide +kernel)
  exact ⟨t, (accountedExactly fresh unused).mpr run⟩

/-! ### Two ways to miscount -/

/-- The client goes away while backend 0 works on its request. -/
def disconnected : List (Event ℚ) := [.call 0 (.arrives 1), .call 0 .bodyRead, .call 0 (.raises .cancelled)]

/-- The reply of backend 0 has been read when the close of the response fails. -/
def closedBadly : List (Event ℚ) :=
  [.call 0 (.arrives 1), .call 0 .bodyRead, .call 0 (.responds 200), .call 0 (.received []),
    .call 0 (.raises (.other []))]

theorem miscounted : (¬ ∀ (w t : World ℚ) (events : List (Event ℚ)), w.Fresh → w.Unused →
    Run (Does (World.step true)) w events t → Balanced t) ∧
    ∃ t, Run (Does (World.step true)) (twoDown getRequest) closedBadly t ∧ ¬ Balanced t := by
  constructor
  · intro promised
    have ⟨fresh, unused⟩ := twoDownStart getRequest
    have ⟨t, run, leaked⟩ : ∃ t, Run (Does (World.step true)) (twoDown getRequest) disconnected t ∧
        decide (t.proxy.metrics.active 0 ≠ t.tally 0 Attempt.inProgress) = true :=
      StepRun.runAny (by decide +kernel)
    exact of_decide_eq_true leaked (promised _ t _ fresh unused run 0).active
  · have ⟨t, run, twice⟩ : ∃ t, Run (Does (World.step true)) (twoDown getRequest) closedBadly t ∧
        decide (t.proxy.metrics.totalReq 0 ≠ t.tally 0 (!·.inProgress)) = true :=
      StepRun.runAny (by decide +kernel)
    exact ⟨t, run, fun balanced => of_decide_eq_true twice (balanced 0).totalReq⟩

end OmegaLb.OmegaProxy
