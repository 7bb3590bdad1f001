import OmegaLb.ProxyHandle
import OmegaLb.StepRun

/-! The attempts that a call of handle makes, at any point of it. -/
namespace OmegaLb.OmegaProxy
open GoText (ascii)
open StepRun (Run Does)

variable {retryIdempotentOnly : Bool} {F : Type}

/-! ### The loop -/

def AllOver (tries : List Attempt) : Prop := ∀ a ∈ tries, a.outcome ≠ none

/-- At the head of the loop. -/
structure Ready (l : Loop) (tries : List Attempt) : Prop where
  over_ : AllOver tries
  count : tries.length = l.attempt
  covered : ∀ a ∈ tries, a.backend ∈ l.tried
  fresh : ∀ a ∈ tries, a.backend ≠ l.backend
  own : l.backend ∈ l.tried
  healthy : 0 < l.attempt → l.healthy = true

/-- While the attempt is in progress. -/
structure Running (l : Loop) (tries : List Attempt) : Prop where
  head : ∃ rest, tries = ⟨l.backend, l.healthy, none⟩ :: rest ∧ AllOver rest
  count : tries.length = l.attempt + 1
  covered : ∀ a ∈ tries, a.backend ∈ l.tried

/-- Once it is over. -/
structure Ended (l : Loop) (tries : List Attempt) : Prop where
  over_ : AllOver tries
  count : tries.length = l.attempt + 1
  covered : ∀ a ∈ tries, a.backend ∈ l.tried

def Placed (granted : List Nat) (tries : List Attempt) : Phase → Prop
  | .arrived => tries = [] ∧ granted = []
  | .readingBody backend _ => tries = [] ∧ granted = [backend]
  | .requesting l => Running l tries
  | .readingReply l _ => Running l tries
  | .closing l (.raise _) => Running l tries
  | .closing l .continue_ => Ended l tries ∧ Ready { l with attempt := l.attempt + 1 } tries
  | .closing l (.return_ _) => Ended l tries
  | .replied _ => AllOver tries
  | .raised _ => AllOver tries

structure Careful (most : Nat) (tries : List Attempt) : Prop where
  few : tries.length ≤ most
  distinct : (tries.map Attempt.backend).Nodup
  chosen : ∀ second first, tries = [second, first] → second.healthy = true

theorem settleRunning {l : Loop} {tries : List Attempt} (running : Running l tries) (o : Outcome) :
    ∃ rest, tries = ⟨l.backend, l.healthy, none⟩ :: rest ∧
      settle o tries = ⟨l.backend, l.healthy, some o⟩ :: rest ∧ AllOver rest := by
  obtain ⟨rest, rfl, over_⟩ := running.head
  exact ⟨rest, rfl, rfl, over_⟩

theorem settleOver {tries : List Attempt} (over_ : AllOver tries) (o : Outcome) : settle o tries = tries := by
  unfold settle
  split
  · exact absurd rfl (over_ _ List.mem_cons_self)
  · rfl

theorem settleEnded {l : Loop} {tries : List Attempt} (at_ : Running l tries ∨ Ended l tries) (o : Outcome) :
    Ended l (settle o tries) := by
  rcases at_ with running | ended
  · obtain ⟨rest, rfl, settled, over_⟩ := settleRunning running o
    obtain ⟨own, later⟩ := List.forall_mem_cons.mp running.covered
    rw [settled]
    exact ⟨List.forall_mem_cons.mpr ⟨Option.some_ne_none o, over_⟩, running.count,
      List.forall_mem_cons.mpr ⟨own, later⟩⟩
  · rwa [settleOver ended.over_]

theorem settleCareful {most : Nat} {tries : List Attempt} (careful : Careful most tries) (o : Outcome) :
    Careful most (settle o tries) := by
  unfold settle
  split
  · rename_i backend healthy rest
    refine ⟨careful.few, careful.distinct, fun second first same => ?_⟩
    cases same
    exact careful.chosen ⟨backend, healthy, none⟩ first rfl
  · exact careful

theorem alternativeReady {p : Proxy F} {l alt : Loop} {tries : List Attempt} (ended : Ended l tries)
    (found : l.alternative p = some alt) :
    Ended alt tries ∧ Ready { alt with attempt := alt.attempt + 1 } tries := by
  obtain ⟨backend, healthy, rfl⟩ := Option.map_eq_some_iff.mp found
  obtain ⟨_, untried, flag⟩ := nextHealthySome healthy
  have covered : ∀ a ∈ tries, a.backend ∈ backend :: l.tried := fun a inside =>
    List.mem_cons_of_mem _ (ended.covered a inside)
  have fresh : ∀ a ∈ tries, a.backend ≠ backend := fun a inside same =>
    untried (same ▸ ended.covered a inside)
  exact ⟨⟨ended.over_, ended.count, covered⟩,
    ended.over_, ended.count, covered, fresh, List.mem_cons_self, fun _ => flag⟩

theorem maxAttemptsBound (r : Request) : maxAttempts retryIdempotentOnly r ≤ 2 := by
  unfold maxAttempts
  split <;> decide

theorem maxAttemptsPositive (r : Request) : 0 < maxAttempts retryIdempotentOnly r := by
  unfold maxAttempts
  split <;> decide

/-! ### One step of a call -/

structure Sound (retryIdempotentOnly : Bool) (c : Handle) : Prop where
  placed : Placed c.granted c.attempts c.phase
  careful : Careful (maxAttempts retryIdempotentOnly c.request) c.attempts

theorem nextSound {c : Handle} {l : Loop} (careful : Careful (maxAttempts retryIdempotentOnly c.request) c.attempts)
    (ready : Ready l c.attempts) (p : Proxy F) : Sound retryIdempotentOnly (c.next retryIdempotentOnly p l).2 := by
  unfold Handle.next
  split
  · rename_i more
    obtain ⟨over_, count, covered, fresh, own, healthy⟩ := ready
    refine ⟨⟨⟨c.attempts, rfl, over_⟩, congrArg (· + 1) count, List.forall_mem_cons.mpr ⟨own, covered⟩⟩,
      ?_, ?_, fun second first same => ?_⟩
    · exact Nat.succ_le_of_lt (count ▸ more)
    · refine List.nodup_cons.mpr ⟨fun listed => ?_, careful.distinct⟩
      obtain ⟨a, inside, same⟩ := List.mem_map.mp listed
      exact fresh a inside same
    · obtain ⟨rfl, before⟩ := List.cons.inj same
      exact healthy (by rw [← count, before]; exact Nat.one_pos)
  · exact ⟨ready.over_, careful⟩

theorem caughtSound {c : Handle} {l : Loop}
    (careful : Careful (maxAttempts retryIdempotentOnly c.request) c.attempts)
    (at_ : Running l c.attempts ∨ Ended l c.attempts) (p : Proxy F) (raised : Raised) :
    Sound retryIdempotentOnly (c.caught retryIdempotentOnly p l raised).2 := by
  have ended := settleEnded at_ .failed
  have kept := settleCareful careful .failed
  cases raised with
  | network text =>
    rcases caughtCases retryIdempotentOnly c p l text with ⟨alt, found, out⟩ | out
    · rw [out]
      exact nextSound kept (alternativeReady ended found).2 _
    · rw [out]
      exact ⟨ended.over_, kept⟩
  | other text => exact ⟨ended.over_, kept⟩
  | cancelled => exact ⟨ended.over_, kept⟩

theorem receivedSound {c : Handle} {l : Loop}
    (careful : Careful (maxAttempts retryIdempotentOnly c.request) c.attempts) (running : Running l c.attempts)
    (p : Proxy F) (response : Response) : Sound retryIdempotentOnly (c.received p l response).2 := by
  have ended := settleEnded (.inl running) (.responded response)
  have kept := settleCareful careful (.responded response)
  rcases receivedCases c p l response with ⟨alt, found, out⟩ | out
  · rw [out]
    exact ⟨alternativeReady ended found, kept⟩
  · rw [out]
    exact ⟨ended, kept⟩

theorem arriveSound [GoMath F] {c : Handle}
    (careful : Careful (maxAttempts retryIdempotentOnly c.request) c.attempts)
    (fresh : c.attempts = [] ∧ c.granted = []) (p : Proxy F) (now : F) :
    Sound retryIdempotentOnly (c.arrive p now).2 := by
  have over_ : AllOver c.attempts := by simp [AllOver, fresh.1]
  obtain ⟨q, _, ⟨backend, healthy, out⟩ | ⟨backend, out⟩ | out⟩ := arriveCases c p now
  · rw [out]
    exact ⟨⟨fresh.1, by rw [fresh.2]⟩, careful⟩
  · rw [out]
    exact ⟨over_, careful⟩
  · rw [out]
    exact ⟨over_, careful⟩

theorem resumeSound [GoMath F] {c : Handle} {p : Proxy F} {input : Input F} {out : Proxy F × Handle}
    (sound : Sound retryIdempotentOnly c) (resumed : Resumed retryIdempotentOnly c p input out) :
    Sound retryIdempotentOnly out.2 := by
  obtain ⟨placed, careful⟩ := sound
  cases resumed with
  | arrives at_ =>
    rw [at_] at placed
    exact arriveSound careful placed p _
  | @begins backend healthy at_ =>
    rw [at_] at placed
    obtain ⟨none_, _⟩ := placed
    have ready : Ready ⟨backend, 0, [backend], healthy⟩ c.attempts := by
      rw [none_]
      exact ⟨nofun, rfl, nofun, nofun, List.mem_singleton_self backend, nofun⟩
    exact nextSound careful ready p
  | bodyLost at_ =>
    rw [at_] at placed
    exact ⟨by simp [Placed, AllOver, placed.1], careful⟩
  | responds at_ =>
    rw [at_] at placed
    exact ⟨placed, careful⟩
  | refused at_ =>
    rw [at_] at placed
    exact caughtSound careful (.inl placed) p _
  | received at_ =>
    rw [at_] at placed
    exact receivedSound careful placed p _
  | cut at_ =>
    rw [at_] at placed
    exact ⟨placed, careful⟩
  | continues at_ =>
    rw [at_] at placed
    exact nextSound careful placed.2 p
  | returns at_ =>
    rw [at_] at placed
    exact ⟨placed.over_, careful⟩
  | leaves at_ =>
    rw [at_] at placed
    exact caughtSound careful (.inl placed) p _
  | @disturbed l exit raised at_ =>
    rw [at_] at placed
    refine caughtSound careful ?_ p _
    cases exit with
    | continue_ => exact .inr placed.1
    | return_ reply => exact .inr placed
    | raise first => exact .inl placed

/-! ### Runs -/

theorem setAll {P : Handle → Prop} {calls : List Handle} {i : Nat} {c : Handle} (found : calls[i]? = some c)
    (held : ∀ d ∈ calls, P d) (next : Handle) : (∀ d ∈ calls.set i next, P d) ↔ P next := by
  obtain ⟨inside, _⟩ := List.getElem?_eq_some_iff.mp found
  constructor
  · exact fun all => all next (List.mem_set inside next)
  · exact StepRun.everySet held i

def AllSound (retryIdempotentOnly : Bool) (w : World F) : Prop := ∀ c ∈ w.calls, Sound retryIdempotentOnly c

variable (retryIdempotentOnly) in
/-- A step either takes one call on, or leaves the calls and all that they count alone. -/
theorem stepCases [GoMath F] {w t : World F} {e : Event F} (step : Does (World.step retryIdempotentOnly) w e t) :
    (∃ i input c out, e = .call i input ∧ w.calls[i]? = some c ∧
      Resumed retryIdempotentOnly c w.proxy input out ∧ t = ⟨out.1, w.calls.set i out.2⟩) ∨
    (∀ i input, e ≠ .call i input) ∧ t.calls = w.calls ∧
      t.proxy.metrics.active = w.proxy.metrics.active ∧ t.proxy.metrics.totalReq = w.proxy.metrics.totalReq ∧
      t.proxy.metrics.totalErr = w.proxy.metrics.totalErr := by
  cases e with
  | call i input =>
    obtain ⟨c, found, step⟩ := Option.bind_eq_some_iff.mp step
    obtain ⟨out, done, same⟩ := Option.bind_eq_some_iff.mp step
    cases same
    exact .inl ⟨i, input, c, out, rfl, found, resumeResumed _ done, rfl⟩
  | setHealth backendId healthy =>
    obtain ⟨p, done, same⟩ := Option.bind_eq_some_iff.mp step
    obtain ⟨k, _, rfl⟩ := Option.map_eq_some_iff.mp done
    cases same
    exact .inr ⟨nofun, rfl, rfl, rfl, rfl⟩
  | setVnodes backendId count =>
    obtain ⟨p, done, same⟩ := Option.bind_eq_some_iff.mp step
    obtain ⟨metrics, _⟩ := setVnodesMetrics done
    cases same
    exact .inr ⟨nofun, rfl, congrArg _ metrics, congrArg _ metrics, congrArg _ metrics⟩
  | setRate backendId rate =>
    cases step
    exact .inr ⟨nofun, rfl, rfl, rfl, rfl⟩

theorem stepAll [GoMath F] {P : Handle → Prop}
    (kept : ∀ (c : Handle) (p : Proxy F) (input : Input F) (out : Proxy F × Handle),
      P c → Resumed retryIdempotentOnly c p input out → P out.2)
    {w t : World F} {e : Event F} (step : Does (World.step retryIdempotentOnly) w e t)
    (all : ∀ c ∈ w.calls, P c) : ∀ c ∈ t.calls, P c := by
  rcases stepCases retryIdempotentOnly step with ⟨i, input, c, out, rfl, found, resumed, rfl⟩ | ⟨_, calls, _⟩
  · exact (setAll found all out.2).mpr (kept c _ _ out (all c (List.mem_of_getElem? found)) resumed)
  · rw [calls]
    exact all

/-- What is asked of the call that runs on. -/
def EachCall (ok : Proxy F → Handle → Input F → Bool) (w : World F) : Event F → Prop
  | .call i input => ∀ c ∈ w.calls[i]?, ok w.proxy c input
  | _ => True

instance (ok : Proxy F → Handle → Input F → Bool) (w : World F) : ∀ e, Decidable (EachCall ok w e)
  | .call i input => inferInstanceAs (Decidable (∀ c ∈ w.calls[i]?, ok w.proxy c input))
  | .setHealth _ _ | .setVnodes _ _ | .setRate _ _ => .isTrue trivial

theorem eachCallAt {ok : Proxy F → Handle → Input F → Bool} {w : World F} {i : Nat} {c : Handle}
    (found : w.calls[i]? = some c) (input : Input F) : EachCall ok w (.call i input) ↔ ok w.proxy c input := by
  simp only [EachCall, found, Option.mem_some, forall_eq']

theorem eachOutside {ok : Proxy F → Handle → Input F → Bool} {w : World F} {e : Event F}
    (outside : ∀ i input, e ≠ .call i input) : EachCall ok w e := by
  cases e with
  | call i input => exact absurd rfl (outside i input)
  | setHealth | setVnodes | setRate => trivial

theorem stepExactly [GoMath F] {known P : Handle → Prop} {ok : Proxy F → Handle → Input F → Bool}
    (exactly_ : ∀ (c : Handle) (p : Proxy F) (input : Input F) (out : Proxy F × Handle), known c → P c →
      Resumed retryIdempotentOnly c p input out → (P out.2 ↔ ok p c input))
    {w t : World F} {e : Event F} (step : Does (World.step retryIdempotentOnly) w e t)
    (knows : ∀ c ∈ w.calls, known c) (all : ∀ c ∈ w.calls, P c) : (∀ c ∈ t.calls, P c) ↔ EachCall ok w e := by
  rcases stepCases retryIdempotentOnly step with
    ⟨i, input, c, out, rfl, found, resumed, rfl⟩ | ⟨outside, calls, _⟩
  · have inside := List.mem_of_getElem? found
    rw [setAll found all out.2, eachCallAt found]
    exact exactly_ c _ _ out (knows c inside) (all c inside) resumed
  · refine iff_of_true ?_ (eachOutside outside)
    rw [calls]
    exact all

theorem stepSound [GoMath F] (w : World F) (e : Event F) (t : World F) (sound : AllSound retryIdempotentOnly w)
    (step : Does (World.step retryIdempotentOnly) w e t) : AllSound retryIdempotentOnly t :=
  stepAll (fun _ _ _ _ => resumeSound) step sound

def World.Fresh (w : World F) : Prop := ∀ c ∈ w.calls, ∃ r : Request, c = r.arriving

theorem freshSound {w : World F} (fresh : w.Fresh) : AllSound retryIdempotentOnly w := by
  intro c inside
  obtain ⟨r, rfl⟩ := fresh c inside
  exact ⟨⟨rfl, rfl⟩, Nat.zero_le _, List.nodup_nil, nofun⟩

theorem methodOnce {r : Request} (named : r.method.name ∉ idempotentMethods) : maxAttempts true r = 1 := by
  simp [maxAttempts, allowRetry, r.method.upperCased, named]

theorem retriesSafe [GoMath F] {w t : World F} (fresh : w.Fresh) {events : List (Event F)}
    (run : Run (Does (World.step retryIdempotentOnly)) w events t) :
    ∀ c ∈ t.calls, c.attempts.length ≤ 2 ∧ (c.attempts.map Attempt.backend).Nodup ∧
      (∀ second first, c.attempts = [second, first] → second.healthy = true) ∧
      (retryIdempotentOnly = true → c.request.method.name ∉ idempotentMethods → c.attempts.length ≤ 1) := by
  intro c inside
  obtain ⟨_, few, distinct, chosen⟩ := StepRun.runInvariant stepSound run (freshSound fresh) c inside
  refine ⟨few.trans (maxAttemptsBound c.request), distinct, chosen, fun only named => ?_⟩
  subst only
  exact methodOnce named ▸ few

/-! ### A failure and a retry -/

def getRequest : Request := ⟨⟨ascii "GET", by decide⟩, ascii "10.0.0.9", ascii "/"⟩
def postRequest : Request := ⟨⟨ascii "POST", by decide⟩, ascii "10.0.0.9", ascii "/"⟩

def downProxy (ring : HaRing.HAring) : Proxy ℚ where
  ring := ring
  metrics := ⟨fun _ => 0, fun _ => 0, fun _ => 0, fun _ => 0, fun _ => false⟩
  buckets := fun _ => ⟨100, 100, 0⟩
  reqCount := 0

def twoDown (r : Request) : World ℚ :=
  ⟨downProxy (((HaRing.start 2 10 HaRing.fewVnodes).putHealth 0 false).putHealth 1 false), [r.arriving]⟩

/-- Backend 0 is tried, backend 1 recovers meanwhile, and then the connection to backend 0 breaks. -/
def retried : List (Event ℚ) :=
  [.call 0 (.arrives 1), .call 0 .bodyRead, .setHealth 1 true, .call 0 (.raises (.network [])),
    .call 0 (.responds 200), .call 0 (.received []), .call 0 .closed]

theorem retriesSafeTwice : ∃ t, Run (Does (World.step true)) (twoDown getRequest) retried t ∧
    ∀ c ∈ t.calls, c.attempts.length ≤ 2 ∧ (c.attempts.map Attempt.backend).Nodup ∧
      (∀ second first, c.attempts = [second, first] → second.healthy = true) ∧
      (true = true → c.request.method.name ∉ idempotentMethods → c.attempts.length ≤ 1) := by
  have fresh : (twoDown getRequest).Fresh := fun c inside => ⟨getRequest, List.mem_singleton.mp inside⟩
  have done : (retried.foldlM (World.step true) (twoDown getRequest)).isSome := by decide +kernel
  have run := StepRun.runFoldlM (Option.some_get done).symm
  exact ⟨_, run, retriesSafe fresh run⟩

end OmegaLb.OmegaProxy
