import OmegaLb.ProxyRetry

/-! What the client is told of the attempts that were made for it. -/
namespace OmegaLb.OmegaProxy
open StepRun (Run Along Guarded Does)

variable {retryIdempotentOnly : Bool} {F : Type}

def LastOutcome (tries : List Attempt) (o : Outcome) : Prop := ∃ a rest, tries = a :: rest ∧ a.outcome = some o

/-- A complete response is relayed, a 502 says that the last attempt failed without one, and a 429
that no attempt was made. -/
def FaithfulReply (tries : List Attempt) : Reply → Prop
  | .upstream response _ _ => LastOutcome tries (.responded response)
  | .badGateway _ _ => LastOutcome tries .failed
  | .exhausted => LastOutcome tries .failed
  | .rateLimited _ => tries = []

def Faithful (c : Handle) : Prop := ∀ reply, c.phase = .replied reply → FaithfulReply c.attempts reply

/-- The response is complete where its block is left on the way out or on. -/
def Answered (c : Handle) : Prop :=
  match c.phase with
  | .closing _ (.return_ reply) => FaithfulReply c.attempts reply ∧ ∃ response, LastOutcome c.attempts (.responded response)
  | .closing _ .continue_ => ∃ response, LastOutcome c.attempts (.responded response)
  | _ => True

theorem oneOutcome {tries : List Attempt} {o o' : Outcome} (first : LastOutcome tries o)
    (second : LastOutcome tries o') : o = o' := by
  obtain ⟨a, rest, rfl, outcome⟩ := first
  obtain ⟨_, _, same, outcome'⟩ := second
  cases same
  exact Option.some.inj (outcome.symm.trans outcome')

theorem faithfulRelays {c : Handle} {reply : Reply} {response : Response} (faithful : Faithful c)
    (replied : c.phase = .replied reply) (last : LastOutcome c.attempts (.responded response)) :
    reply.status = response.status ∧ ∃ backend attempts, reply = .upstream response backend attempts := by
  have told := faithful reply replied
  cases reply with
  | upstream other backend attempts =>
    cases oneOutcome last told
    exact ⟨rfl, backend, attempts, rfl⟩
  | badGateway error backend => cases oneOutcome last told
  | exhausted => cases oneOutcome last told
  | rateLimited backend =>
    obtain ⟨a, rest, shape, _⟩ := last
    cases shape.symm.trans told

theorem settleLast {l : Loop} {tries : List Attempt} (running : Running l tries) (o : Outcome) :
    LastOutcome (settle o tries) o := by
  obtain ⟨rest, _, settled, _⟩ := settleRunning running o
  exact ⟨_, rest, settled, rfl⟩

/-! ### One step of a call -/

section Step
variable (retryIdempotentOnly)

/-- The attempt goes to another backend, and so is not the last one. -/
def Handle.retries (c : Handle) (p : Proxy F) (l : Loop) : Bool :=
  l.attempt = 0 && (p.nextHealthy l.tried).isSome && 1 < maxAttempts retryIdempotentOnly c.request

/-- Once a response is complete, its block is left for a reply or for another attempt. -/
def Handle.relays (c : Handle) (p : Proxy F) (input : Input F) : Bool :=
  match c.phase, input with
  | .closing l .continue_, .closed => l.attempt + 1 < maxAttempts retryIdempotentOnly c.request
  | .closing _ (.raise _), .raises _ => true
  | .closing l _, .raises (.network _) => c.retries retryIdempotentOnly p l
  | .closing _ _, .raises (.other _) => false
  | _, _ => true

end Step

theorem nextFaithful (c : Handle) (p : Proxy F) (l : Loop) :
    Faithful (c.next retryIdempotentOnly p l).2 ↔
      (l.attempt < maxAttempts retryIdempotentOnly c.request ∨ LastOutcome c.attempts .failed) := by
  unfold Handle.next
  split
  · exact iff_of_true nofun (.inl ‹_›)
  · rename_i spent
    constructor
    · exact fun faithful => .inr (faithful .exhausted rfl)
    · intro failed reply replied
      cases replied
      exact failed.resolve_left spent

theorem caughtFailed {c : Handle} {l : Loop} (running : Running l c.attempts) (p : Proxy F) (raised : Raised) :
    Faithful (c.caught retryIdempotentOnly p l raised).2 := by
  have failed := settleLast running .failed
  have gone (error : _) (backend : Nat) : Faithful ((c.settle .failed).reply (.badGateway error backend)) := by
    intro reply replied
    cases replied
    exact failed
  cases raised with
  | network text =>
    rcases caughtCases retryIdempotentOnly c p l text with ⟨alt, _, out⟩ | out
    · rw [out]
      exact (nextFaithful _ _ _).mpr (.inr failed)
    · rw [out]
      exact gone _ _
  | other text => exact gone _ _
  | cancelled => exact nofun

def Synthetic502 : Reply → Prop
  | .badGateway _ _ => True
  | .exhausted => True
  | _ => False

variable (retryIdempotentOnly) in
/-- A network error leads to another attempt, or to a 502. -/
inductive AfterNetwork (c : Handle) (p : Proxy F) (l : Loop) : Bool → Proxy F × Handle → Prop where
  | again {alt : Loop} (room : alt.attempt < maxAttempts retryIdempotentOnly c.request) :
      AfterNetwork c p l true ((c.settle .failed).next retryIdempotentOnly (p.finish l.backend true 0) alt)
  | gone {reply : Reply} (synthetic : Synthetic502 reply) :
      AfterNetwork c p l false (p.finish l.backend true 0, (c.settle .failed).reply reply)

theorem caughtNetwork (c : Handle) (p : Proxy F) (l : Loop) (text : GoText.Bytes) :
    AfterNetwork retryIdempotentOnly c p l (c.retries retryIdempotentOnly p l)
      (c.caught retryIdempotentOnly p l (.network text)) := by
  have gone (reply : Reply) (synthetic : Synthetic502 reply) : AfterNetwork retryIdempotentOnly c p l false
    (p.finish l.backend true 0, (c.settle .failed).reply reply) := .gone synthetic
  have again (alt : Loop) (room : alt.attempt < maxAttempts retryIdempotentOnly c.request) :
    AfterNetwork retryIdempotentOnly c p l true
      ((c.settle .failed).next retryIdempotentOnly (p.finish l.backend true 0) alt) := .again room
  rw [Handle.caught, Handle.retries]
  by_cases first : l.attempt = 0
  · rw [if_pos first]
    cases found : p.nextHealthy l.tried with
    | none =>
      have none_ : l.alternative (p.finish l.backend true 0) = none := congrArg (Option.map _) found
      simpa [none_] using gone (.badGateway text l.backend) trivial
    | some alt =>
      have some_ : l.alternative (p.finish l.backend true 0) =
          some ⟨alt, l.attempt, alt :: l.tried, p.metrics.health alt⟩ := congrArg (Option.map _) found
      by_cases room : 1 < maxAttempts retryIdempotentOnly c.request
      · simpa [some_, first, room] using again ⟨alt, 1, alt :: l.tried, p.metrics.health alt⟩ room
      · have spent : (c.settle .failed).next retryIdempotentOnly (p.finish l.backend true 0)
            ⟨alt, 1, alt :: l.tried, p.metrics.health alt⟩ =
              (p.finish l.backend true 0, (c.settle .failed).reply .exhausted) := if_neg room
        simpa [some_, first, room, spent] using gone .exhausted trivial
  · simpa [first] using gone (.badGateway text l.backend) trivial

theorem caughtAnswered {c : Handle} {l : Loop} {response : Response} (ended : Ended l c.attempts)
    (last : LastOutcome c.attempts (.responded response)) (p : Proxy F) (raised : Raised) :
    Faithful (c.caught retryIdempotentOnly p l raised).2 ↔
      raised = .cancelled ∨ (∃ text, raised = .network text) ∧ c.retries retryIdempotentOnly p l := by
  have settled : c.settle .failed = c := by
    rw [Handle.settle, settleOver ended.over_]
  have unfaithful (reply : Reply) (synthetic : Synthetic502 reply) : ¬ Faithful (c.reply reply) := by
    intro faithful
    have told := faithful reply rfl
    cases reply with
    | badGateway | exhausted => cases oneOutcome last told
    | upstream | rateLimited => exact synthetic
  cases raised with
  | network text =>
    have network : AfterNetwork retryIdempotentOnly c p l _ _ := caughtNetwork c p l text
    generalize c.caught retryIdempotentOnly p l (.network text) = out at network
    generalize c.retries retryIdempotentOnly p l = again at network
    cases network with
    | again room => exact iff_of_true ((nextFaithful _ _ _).mpr (.inl room)) (.inr ⟨⟨text, rfl⟩, rfl⟩)
    | gone synthetic =>
      rw [settled]
      simpa using unfaithful _ synthetic
  | other text =>
    rw [Handle.caught, settled]
    simpa using unfaithful (.badGateway text l.backend) trivial
  | cancelled =>
    refine iff_of_true (fun reply told => ?_) (.inl rfl)
    cases told

theorem answeredOutside {c : Handle} (outside : ∀ l exit, c.phase ≠ .closing l exit) : Answered c := by
  unfold Answered
  split
  · exact absurd ‹_› (outside _ _)
  · exact absurd ‹_› (outside _ _)
  · trivial

theorem nextOutside (c : Handle) (p : Proxy F) (l : Loop) (m : Loop) (exit : Exit) :
    (c.next retryIdempotentOnly p l).2.phase ≠ .closing m exit := by
  unfold Handle.next
  split <;> exact nofun

theorem caughtOutside (c : Handle) (p : Proxy F) (l : Loop) (raised : Raised) (m : Loop) (exit : Exit) :
    (c.caught retryIdempotentOnly p l raised).2.phase ≠ .closing m exit := by
  cases raised with
  | network text =>
    rcases caughtCases retryIdempotentOnly c p l text with ⟨alt, _, out⟩ | out
    · rw [out]
      exact nextOutside _ _ _ m exit
    · rw [out]
      exact nofun
  | other text => exact nofun
  | cancelled => exact nofun

theorem receivedAnswered {c : Handle} {l : Loop} (running : Running l c.attempts) (p : Proxy F)
    (response : Response) : Answered (c.received p l response).2 := by
  have last := settleLast running (.responded response)
  rcases receivedCases c p l response with ⟨alt, _, out⟩ | out
  · rw [out]
    exact ⟨response, last⟩
  · rw [out]
    exact ⟨last, response, last⟩

theorem resumeAnswered [GoMath F] {c : Handle} {p : Proxy F} {input : Input F} {out : Proxy F × Handle}
    (sound : Sound retryIdempotentOnly c) (resumed : Resumed retryIdempotentOnly c p input out) :
    Answered out.2 := by
  have placed := sound.placed
  cases resumed with
  | arrives at_ =>
    refine answeredOutside fun l exit => ?_
    obtain ⟨q, _, ⟨_, _, out⟩ | ⟨_, out⟩ | out⟩ := arriveCases c p _
    all_goals
      rw [out]
      exact nofun
  | begins at_ => exact answeredOutside (nextOutside c p _)
  | bodyLost at_ => trivial
  | responds at_ => trivial
  | refused at_ => exact answeredOutside (caughtOutside c p _ _)
  | received at_ =>
    rw [at_] at placed
    exact receivedAnswered placed p _
  | cut at_ => trivial
  | continues at_ => exact answeredOutside (nextOutside c p _)
  | returns at_ => trivial
  | leaves at_ => exact answeredOutside (caughtOutside c p _ _)
  | disturbed at_ => exact answeredOutside (caughtOutside c p _ _)

theorem arriveFaithful [GoMath F] {c : Handle} (untried : c.attempts = []) (p : Proxy F) (now : F) :
    Faithful (c.arrive p now).2 := by
  obtain ⟨q, _, ⟨_, _, out⟩ | ⟨_, out⟩ | out⟩ := arriveCases c p now
  · rw [out]
    exact nofun
  · rw [out]
    intro reply replied
    cases replied
    exact untried
  · rw [out]
    exact nofun

theorem receivedFaithful (c : Handle) (p : Proxy F) (l : Loop) (response : Response) :
    Faithful (c.received p l response).2 := by
  rcases receivedCases c p l response with ⟨alt, _, out⟩ | out
  · rw [out]
    exact nofun
  · rw [out]
    exact nofun

theorem disturbedFaithful {c : Handle} {p : Proxy F} {l : Loop} {exit : Exit} {raised : Raised}
    (sound : Sound retryIdempotentOnly c) (answered : Answered c) (at_ : c.phase = .closing l exit) :
    Faithful (c.caught retryIdempotentOnly p l raised).2 ↔ c.relays retryIdempotentOnly p (.raises raised : Input F) := by
  have placed := sound.placed
  rw [at_] at placed
  rw [Answered, at_] at answered
  cases exit with
  | continue_ =>
    obtain ⟨response, last⟩ := answered
    rw [caughtAnswered placed.1 last]
    cases raised <;> simp [Handle.relays, at_]
  | return_ reply =>
    obtain ⟨_, response, last⟩ := answered
    rw [caughtAnswered placed last]
    cases raised <;> simp [Handle.relays, at_]
  | raise first =>
    exact iff_of_true (caughtFailed placed p _) (by simp [Handle.relays, at_])

theorem resumeFaithful [GoMath F] {c : Handle} {p : Proxy F} {input : Input F} {out : Proxy F × Handle}
    (sound : Sound retryIdempotentOnly c) (answered : Answered c)
    (resumed : Resumed retryIdempotentOnly c p input out) :
    Faithful out.2 ↔ c.relays retryIdempotentOnly p input := by
  have placed := sound.placed
  cases resumed with
  | arrives at_ =>
    rw [at_] at placed
    exact iff_of_true (arriveFaithful placed.1 p _) (by simp [Handle.relays, at_])
  | begins at_ =>
    exact iff_of_true ((nextFaithful _ _ _).mpr (.inl (maxAttemptsPositive c.request))) (by simp [Handle.relays, at_])
  | bodyLost at_ => exact iff_of_true nofun (by simp [Handle.relays, at_])
  | responds at_ => exact iff_of_true nofun (by simp [Handle.relays, at_])
  | refused at_ =>
    rw [at_] at placed
    exact iff_of_true (caughtFailed placed p _) (by simp [Handle.relays, at_])
  | received at_ => exact iff_of_true (receivedFaithful c p _ _) (by simp [Handle.relays, at_])
  | cut at_ => exact iff_of_true nofun (by simp [Handle.relays, at_])
  | @continues l at_ =>
    rw [Answered, at_] at answered
    obtain ⟨response, last⟩ := answered
    have unanswered : ¬ LastOutcome c.attempts .failed := fun failed => nomatch oneOutcome last failed
    rw [nextFaithful, or_iff_left unanswered]
    simp [Handle.relays, at_]
  | returns at_ =>
    rw [Answered, at_] at answered
    refine iff_of_true (fun reply replied => ?_) (by simp [Handle.relays, at_])
    cases replied
    exact answered.1
  | leaves at_ =>
    rw [at_] at placed
    exact iff_of_true (caughtFailed placed p _) (by simp [Handle.relays, at_])
  | disturbed at_ => exact disturbedFaithful sound answered at_

/-! ### Runs -/

def AllFaithful (w : World F) : Prop := ∀ c ∈ w.calls, Faithful c

variable (retryIdempotentOnly) in
abbrev AllRelay : World F → Event F → Prop := EachCall fun p c input => c.relays retryIdempotentOnly p input

def AllAnswered (retryIdempotentOnly : Bool) (w : World F) : Prop :=
  ∀ c ∈ w.calls, Sound retryIdempotentOnly c ∧ Answered c

theorem stepAnswered [GoMath F] (w : World F) (e : Event F) (t : World F)
    (known : AllAnswered retryIdempotentOnly w) (step : Does (World.step retryIdempotentOnly) w e t) :
    AllAnswered retryIdempotentOnly t :=
  stepAll (fun _ _ _ _ known resumed => ⟨resumeSound known.1 resumed, resumeAnswered known.1 resumed⟩) step known

theorem stepFaithful [GoMath F] (w : World F) (e : Event F) (t : World F)
    (known : AllAnswered retryIdempotentOnly w) (faithful : AllFaithful w)
    (step : Does (World.step retryIdempotentOnly) w e t) : AllFaithful t ↔ AllRelay retryIdempotentOnly w e :=
  stepExactly (fun _ _ _ _ known _ resumed => resumeFaithful known.1 known.2 resumed) step known faithful

theorem faithfulExactly [GoMath F] {w t : World F} (fresh : w.Fresh) {events : List (Event F)} :
    Run (Along AllFaithful (Does (World.step retryIdempotentOnly))) w events t ↔
      Run (Guarded (AllRelay retryIdempotentOnly) (Does (World.step retryIdempotentOnly))) w events t := by
  refine StepRun.alongGuarded stepAnswered stepFaithful (fun c inside => ?_) (fun c inside => ?_)
  · refine ⟨freshSound fresh c inside, answeredOutside fun l exit at_ => ?_⟩
    obtain ⟨r, rfl⟩ := fresh c inside
    cases at_
  · obtain ⟨r, rfl⟩ := fresh c inside
    exact nofun

/-! ### A response thrown away -/

/-- Backend 0 answers a POST with 503 while backend 1 is up. -/
def refusedPost : List (Event ℚ) :=
  [.call 0 (.arrives 1), .call 0 .bodyRead, .setHealth 1 true, .call 0 (.responds 503),
    .call 0 (.received []), .call 0 .closed]

theorem faithfulExactlyRetried : ∃ t : World ℚ,
    Run (Along AllFaithful (Does (World.step true))) (twoDown getRequest) retried t := by
  have fresh : (twoDown getRequest).Fresh := fun c inside => ⟨getRequest, List.mem_singleton.mp inside⟩
  have ⟨t, run, _⟩ : ∃ t, Run (Guarded (AllRelay true) (Does (World.step true))) (twoDown getRequest) retried t ∧
      (fun _ => true) t = true := StepRun.runGuardedAny (by decide +kernel)
  exact ⟨t, (faithfulExactly fresh).mpr run⟩

theorem responseThrownAway : ¬ ∀ (w t : World ℚ) (events : List (Event ℚ)), w.Fresh →
    Run (Does (World.step true)) w events t → AllFaithful t := by
  intro promised
  have fresh : (twoDown postRequest).Fresh := fun c inside => ⟨postRequest, List.mem_singleton.mp inside⟩
  have ⟨t, run, lost⟩ : ∃ t, Run (Does (World.step true)) (twoDown postRequest) refusedPost t ∧
      decide (∃ c ∈ t.calls, c.phase = .replied .exhausted ∧
        c.attempts = [⟨0, false, some (.responded ⟨503, []⟩)⟩]) = true := StepRun.runAny (by decide +kernel)
  obtain ⟨c, inside, replied, shape⟩ := of_decide_eq_true lost
  have told := promised _ _ _ fresh run c inside _ replied
  rw [shape] at told
  obtain ⟨a, rest, same, failed⟩ := told
  cases same
  cases failed

end OmegaLb.OmegaProxy
