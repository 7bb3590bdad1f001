import OmegaLb.ProxyReplies
import Mathlib.Algebra.Order.BigOperators.Group.List

/-! The tokens that the attempts of a call are covered by. -/
namespace OmegaLb.OmegaProxy
open StepRun (Run Along Guarded Does)

variable {retryIdempotentOnly : Bool} {F : Type}

def Handle.sent (c : Handle) : List Nat := c.attempts.map Attempt.backend

/-- Every attempt has a token of its backend of its own. -/
def Covered (c : Handle) : Prop := ∀ backend, c.sent.count backend ≤ c.granted.count backend

structure Granted (retryIdempotentOnly : Bool) (c : Handle) : Prop where
  sound : Sound retryIdempotentOnly c
  once : c.granted.length ≤ 1

theorem coveredLength {c : Handle} (covered : Covered c) : c.sent.length ≤ c.granted.length :=
  (List.subperm_ext_iff.mpr fun backend _ => covered backend).length_le

/-! ### One step of a call -/

section Step
variable (retryIdempotentOnly)

def Handle.resent (c : Handle) (p : Proxy F) (l : Loop) : Raised → Bool
  | .network _ => c.retries retryIdempotentOnly p l
  | _ => false

def Handle.resends (c : Handle) (p : Proxy F) (input : Input F) : Bool :=
  match c.phase, input with
  | .closing l .continue_, .closed => l.attempt + 1 < maxAttempts retryIdempotentOnly c.request
  | .requesting l, .raises raised => c.resent retryIdempotentOnly p l raised
  | .closing l (.raise raised), .closed => c.resent retryIdempotentOnly p l raised
  | .closing l _, .raises raised => c.resent retryIdempotentOnly p l raised
  | _, _ => false

end Step

def Sends (again : Bool) (c d : Handle) : Prop :=
  d.granted = c.granted ∧ if again then ∃ alt, d.sent = alt :: c.sent else d.sent = c.sent

theorem settleSent (c : Handle) (o : Outcome) : (c.settle o).sent = c.sent := by
  unfold Handle.settle Handle.sent settle
  dsimp only
  split
  · rename_i shape
    rw [shape]
    rfl
  · rfl

theorem nextSends (c : Handle) (p : Proxy F) (l : Loop) :
    Sends (l.attempt < maxAttempts retryIdempotentOnly c.request) c (c.next retryIdempotentOnly p l).2 := by
  unfold Handle.next Sends
  split
  · exact ⟨rfl, by simp [*, Handle.sent]⟩
  · exact ⟨rfl, by simp [*, Handle.sent, Handle.reply]⟩

theorem sendsSettled {again : Bool} {c d : Handle} {o : Outcome} (sends : Sends again (c.settle o) d) :
    Sends again c d := by
  rw [Sends, settleSent] at sends
  exact sends

theorem caughtSends (c : Handle) (p : Proxy F) (l : Loop) (raised : Raised) :
    Sends (c.resent retryIdempotentOnly p l raised) c (c.caught retryIdempotentOnly p l raised).2 := by
  cases raised with
  | network text =>
    have network : AfterNetwork retryIdempotentOnly c p l _ _ := caughtNetwork c p l text
    rw [Handle.resent]
    generalize c.caught retryIdempotentOnly p l (.network text) = out at network
    generalize c.retries retryIdempotentOnly p l = again at network
    cases network with
    | @again alt room =>
      have sends : Sends (alt.attempt < maxAttempts retryIdempotentOnly c.request) (c.settle .failed)
          ((c.settle .failed).next retryIdempotentOnly (p.finish l.backend true 0) alt).2 := nextSends _ _ alt
      rw [decide_eq_true room] at sends
      exact sendsSettled sends
    | gone synthetic => exact sendsSettled ⟨rfl, rfl⟩
  | other text => exact sendsSettled ⟨rfl, rfl⟩
  | cancelled => exact sendsSettled ⟨rfl, rfl⟩

theorem sendsCovered {again : Bool} {c d : Handle} (sends : Sends again c d) (once : c.granted.length ≤ 1)
    (sent : 0 < c.sent.length) (covered : Covered c) : Covered d ↔ again = false := by
  obtain ⟨granted, sends⟩ := sends
  cases again with
  | true =>
    obtain ⟨alt, sends⟩ := sends
    refine iff_of_false (fun covered => ?_) (Bool.noConfusion ·)
    have few := coveredLength covered
    rw [granted, sends, List.length_cons] at few
    omega
  | false => exact iff_of_true (fun backend => by rw [granted, sends]; exact covered backend) rfl

theorem arriveGranted [GoMath F] {c : Handle} (fresh : c.granted = []) (p : Proxy F) (now : F) :
    (c.arrive p now).2.sent = c.sent ∧ (c.arrive p now).2.granted.length ≤ 1 := by
  obtain ⟨q, _, ⟨backend, _, out⟩ | ⟨_, out⟩ | out⟩ := arriveCases c p now
  · have one : (backend :: c.granted).length ≤ 1 := by
      rw [fresh]
      exact Nat.le_refl 1
    rw [out]
    exact ⟨rfl, one⟩
  · rw [out]
    exact ⟨rfl, fresh ▸ Nat.zero_le 1⟩
  · rw [out]
    exact ⟨rfl, fresh ▸ Nat.zero_le 1⟩

theorem receivedSent (c : Handle) (p : Proxy F) (l : Loop) (response : Response) :
    (c.received p l response).2.sent = c.sent ∧ (c.received p l response).2.granted = c.granted := by
  have settled := settleSent c (.responded response)
  rcases receivedCases c p l response with ⟨alt, _, out⟩ | out
  · rw [out]
    exact ⟨settled, rfl⟩
  · rw [out]
    exact ⟨settled, rfl⟩

theorem resumeGranted [GoMath F] {c : Handle} {p : Proxy F} {input : Input F} {out : Proxy F × Handle}
    (known : Granted retryIdempotentOnly c) (resumed : Resumed retryIdempotentOnly c p input out) :
    Granted retryIdempotentOnly out.2 := by
  refine ⟨resumeSound known.sound resumed, ?_⟩
  have placed := known.sound.placed
  have once := known.once
  cases resumed with
  | arrives at_ =>
    rw [at_] at placed
    exact (arriveGranted placed.2 p _).2
  | begins at_ => rwa [(nextSends c p _).1]
  | bodyLost at_ => exact once
  | responds at_ => exact once
  | refused at_ => rwa [(caughtSends c p _ _).1]
  | received at_ => rwa [(receivedSent c p _ _).2]
  | cut at_ => exact once
  | continues at_ => rwa [(nextSends c p _).1]
  | returns at_ => exact once
  | leaves at_ => rwa [(caughtSends c p _ _).1]
  | disturbed at_ => rwa [(caughtSends c p _ _).1]

theorem resumeCovered [GoMath F] {c : Handle} {p : Proxy F} {input : Input F} {out : Proxy F × Handle}
    (known : Granted retryIdempotentOnly c) (covered : Covered c)
    (resumed : Resumed retryIdempotentOnly c p input out) :
    Covered out.2 ↔ c.resends retryIdempotentOnly p input = false := by
  have placed := known.sound.placed
  have sentLength : c.sent.length = c.attempts.length := List.length_map _
  have still {again : Bool} {d : Handle} (sends : Sends again c d) (count : 0 < c.attempts.length) :
      Covered d ↔ again = false := sendsCovered sends known.once (sentLength ▸ count) covered
  cases resumed with
  | @arrives now at_ =>
    rw [at_] at placed
    refine iff_of_true (fun backend => ?_) (by simp [Handle.resends, at_])
    rw [(arriveGranted placed.2 p now).1, Handle.sent, placed.1]
    exact Nat.zero_le _
  | @begins backend healthy at_ =>
    rw [at_] at placed
    refine iff_of_true (fun other => ?_) (by simp [Handle.resends, at_])
    rw [Handle.next, if_pos (maxAttemptsPositive c.request)]
    exact Nat.le_of_eq (by rw [Handle.sent, placed.1, placed.2]; rfl)
  | bodyLost at_ => exact iff_of_true covered (by simp [Handle.resends, at_])
  | responds at_ => exact iff_of_true covered (by simp [Handle.resends, at_])
  | @refused l raised at_ =>
    rw [at_] at placed
    simpa [Handle.resends, at_] using still (caughtSends c p l raised) (by rw [placed.count]; exact Nat.succ_pos _)
  | @received l status body at_ =>
    obtain ⟨sent, granted⟩ := receivedSent c p l ⟨status, body⟩
    refine iff_of_true (fun backend => ?_) (by simp [Handle.resends, at_])
    rw [sent, granted]
    exact covered backend
  | cut at_ => exact iff_of_true covered (by simp [Handle.resends, at_])
  | @continues l at_ =>
    rw [at_] at placed
    simpa [Handle.resends, at_] using
      still (nextSends c p { l with attempt := l.attempt + 1 }) (by rw [placed.1.count]; exact Nat.succ_pos _)
  | returns at_ => exact iff_of_true covered (by simp [Handle.resends, at_])
  | @leaves l raised at_ =>
    rw [at_] at placed
    simpa [Handle.resends, at_] using still (caughtSends c p l raised) (by rw [placed.count]; exact Nat.succ_pos _)
  | @disturbed l exit raised at_ =>
    rw [at_] at placed
    have count : c.attempts.length = l.attempt + 1 := by
      cases exit with
      | continue_ => exact placed.1.count
      | return_ reply => exact placed.count
      | raise first => exact placed.count
    simpa [Handle.resends, at_] using still (caughtSends c p l raised) (by rw [count]; exact Nat.succ_pos _)

/-! ### Runs -/

/-- The attempts sent to a backend, and the tokens that its bucket has granted. -/
def World.sent (w : World F) (backend : Nat) : Nat := (w.calls.map fun c => c.sent.count backend).sum
def World.granted (w : World F) (backend : Nat) : Nat := (w.calls.map fun c => c.granted.count backend).sum

def AllCovered (w : World F) : Prop := ∀ c ∈ w.calls, Covered c

variable (retryIdempotentOnly) in
abbrev NoneResends : World F → Event F → Prop := EachCall fun p c input => !c.resends retryIdempotentOnly p input

def AllGranted (retryIdempotentOnly : Bool) (w : World F) : Prop := ∀ c ∈ w.calls, Granted retryIdempotentOnly c

theorem coveredGranted {w : World F} (covered : AllCovered w) (backend : Nat) : w.sent backend ≤ w.granted backend :=
  List.sum_le_sum fun c inside => covered c inside backend

theorem stepGranted [GoMath F] (w : World F) (e : Event F) (t : World F)
    (known : AllGranted retryIdempotentOnly w) (step : Does (World.step retryIdempotentOnly) w e t) :
    AllGranted retryIdempotentOnly t :=
  stepAll (fun _ _ _ _ => resumeGranted) step known

theorem stepCovered [GoMath F] (w : World F) (e : Event F) (t : World F)
    (known : AllGranted retryIdempotentOnly w) (covered : AllCovered w)
    (step : Does (World.step retryIdempotentOnly) w e t) : AllCovered t ↔ NoneResends retryIdempotentOnly w e := by
  refine stepExactly (fun c p input out known covered resumed => ?_) step known covered
  rw [Bool.not_eq_true']
  exact resumeCovered known covered resumed

theorem freshGranted {w : World F} (fresh : w.Fresh) : AllGranted retryIdempotentOnly w ∧ AllCovered w := by
  refine ⟨fun c inside => ⟨freshSound fresh c inside, ?_⟩, fun c inside backend => ?_⟩
  · obtain ⟨r, rfl⟩ := fresh c inside
    exact Nat.zero_le 1
  · obtain ⟨r, rfl⟩ := fresh c inside
    exact Nat.le_refl 0

theorem attemptsCovered [GoMath F] {w t : World F} (fresh : w.Fresh) {events : List (Event F)} :
    (Run (Along AllCovered (Does (World.step retryIdempotentOnly))) w events t ↔
      Run (Guarded (NoneResends retryIdempotentOnly) (Does (World.step retryIdempotentOnly))) w events t) ∧
    (Run (Guarded (NoneResends retryIdempotentOnly) (Does (World.step retryIdempotentOnly))) w events t →
      ∀ backend, t.sent backend ≤ t.granted backend) := by
  obtain ⟨known, covered⟩ := freshGranted fresh
  refine ⟨StepRun.alongGuarded stepGranted stepCovered known covered, fun run backend => ?_⟩
  have kept : ∀ (s : World F) (e : Event F) (u : World F), AllGranted retryIdempotentOnly s ∧ AllCovered s →
      NoneResends retryIdempotentOnly s e → Does (World.step retryIdempotentOnly) s e u →
      AllGranted retryIdempotentOnly u ∧ AllCovered u := by
    intro s e u held none_ step
    exact ⟨stepGranted s e u held.1 step, (stepCovered s e u held.1 held.2 step).mpr none_⟩
  exact coveredGranted (StepRun.guardedInvariant kept run ⟨known, covered⟩).2 backend

/-! ### A retry without a token -/

def answeredOnce : List (Event ℚ) :=
  [.call 0 (.arrives 1), .call 0 .bodyRead, .call 0 (.responds 200), .call 0 (.received []), .call 0 .closed]

theorem attemptsCoveredOnce : ∃ t : World ℚ,
    Run (Along AllCovered (Does (World.step true))) (twoDown getRequest) answeredOnce t ∧
      ∀ backend, t.sent backend ≤ t.granted backend := by
  have fresh : (twoDown getRequest).Fresh := fun c inside => ⟨getRequest, List.mem_singleton.mp inside⟩
  have ⟨t, run, _⟩ : ∃ t, Run (Guarded (NoneResends true) (Does (World.step true))) (twoDown getRequest)
      answeredOnce t ∧ (fun _ => true) t = true := StepRun.runGuardedAny (by decide +kernel)
  exact ⟨t, (attemptsCovered fresh).1.mpr run, (attemptsCovered fresh).2 run⟩

/-- Backend 1 is sent the retry of a GET, and its bucket has granted nothing. -/
theorem retryUncovered : ¬ ∀ (w t : World ℚ) (events : List (Event ℚ)), w.Fresh →
    Run (Does (World.step true)) w events t → ∀ backend, t.sent backend ≤ t.granted backend := by
  intro promised
  have fresh : (twoDown getRequest).Fresh := fun c inside => ⟨getRequest, List.mem_singleton.mp inside⟩
  have ⟨t, run, more⟩ : ∃ t, Run (Does (World.step true)) (twoDown getRequest) retried t ∧
      decide (t.granted 1 < t.sent 1) = true := StepRun.runAny (by decide +kernel)
  exact absurd (of_decide_eq_true more) (Nat.not_lt.mpr (promised _ _ _ fresh run 1))

end OmegaLb.OmegaProxy
