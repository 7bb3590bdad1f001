import OmegaLb.ProxyState

/-! OmegaLBProxy.handle, cut at its awaits: what a call does until it waits again, given what has
come of the wait. A reply is its status and body; its headers are left out. -/
namespace OmegaLb.OmegaProxy
open GoText (Bytes ascii decimal)

def upper (name : Bytes) : Bytes := name.map fun b => if 97 ≤ b ∧ b ≤ 122 then b - 32 else b

/-- The method of a request, which aiohttp gives in upper case. -/
structure Method where
  name : Bytes
  upperCased : upper name = name

def idempotentMethods : List Bytes :=
  [ascii "GET", ascii "HEAD", ascii "OPTIONS", ascii "PUT", ascii "DELETE"]

structure Request where
  method : Method
  remote : Bytes
  path : Bytes

structure Response where
  status : Nat
  body : Bytes
  deriving DecidableEq, Repr

def Response.isError (r : Response) : Bool := decide (500 ≤ r.status)

/-- What an await may raise: a ClientConnectionError or a TimeoutError, another Exception, or
CancelledError, which is none. -/
inductive Raised where
  | network (text : Bytes)
  | other (text : Bytes)
  | cancelled
  deriving DecidableEq, Repr

inductive Reply where
  | upstream (response : Response) (backend attempts : Nat)
  | rateLimited (backend : Nat)
  | badGateway (error : Bytes) (backend : Nat)
  | exhausted
  deriving DecidableEq, Repr

def Reply.status : Reply → Nat
  | .upstream response _ _ => response.status
  | .rateLimited _ => 429
  | .badGateway _ _ => 502
  | .exhausted => 502

inductive Outcome where
  | responded (response : Response)
  | failed
  deriving DecidableEq, Repr

/-- One attempt on a backend, which was `healthy` or not when it was chosen. -/
structure Attempt where
  backend : Nat
  healthy : Bool
  outcome : Option Outcome
  deriving DecidableEq, Repr

/-- The variables of the retry loop, with the flag of the backend when it was chosen. -/
structure Loop where
  backend : Nat
  attempt : Nat
  tried : List Nat
  healthy : Bool
  deriving DecidableEq, Repr

inductive Exit where
  | continue_
  | return_ (reply : Reply)
  | raise (raised : Raised)
  deriving DecidableEq, Repr

inductive Phase where
  | arrived
  | readingBody (backend : Nat) (healthy : Bool)
  | requesting (l : Loop)
  | readingReply (l : Loop) (status : Nat)
  | closing (l : Loop) (exit : Exit)
  | replied (reply : Reply)
  | raised (raised : Raised)
  deriving DecidableEq, Repr

/-- A call of handle, with the backends whose buckets have granted it a token and its attempts so
far, the last one first. -/
structure Handle where
  request : Request
  phase : Phase
  granted : List Nat
  attempts : List Attempt

inductive Input (F : Type) where
  | arrives (now : F)
  | bodyRead
  | responds (status : Nat)
  | received (body : Bytes)
  | closed
  | raises (raised : Raised)

section Handle
variable (retryIdempotentOnly : Bool)

def allowRetry (r : Request) : Bool := !retryIdempotentOnly || upper r.method.name ∈ idempotentMethods

def maxAttempts (r : Request) : Nat := if allowRetry retryIdempotentOnly r then 2 else 1

variable {F : Type}

def settle (o : Outcome) : List Attempt → List Attempt
  | ⟨backend, healthy, none⟩ :: rest => ⟨backend, healthy, some o⟩ :: rest
  | attempts => attempts

def Handle.settle (c : Handle) (o : Outcome) : Handle := { c with attempts := OmegaProxy.settle o c.attempts }

def Handle.reply (c : Handle) (reply : Reply) : Handle := { c with phase := .replied reply }

/-- The head of the loop. -/
def Handle.next (c : Handle) (p : Proxy F) (l : Loop) : Proxy F × Handle :=
  if l.attempt < maxAttempts retryIdempotentOnly c.request then
    (p.start l.backend,
      { c with phase := .requesting l, attempts := ⟨l.backend, l.healthy, none⟩ :: c.attempts })
  else (p, c.reply .exhausted)

def Loop.alternative (l : Loop) (p : Proxy F) : Option Loop :=
  (p.nextHealthy l.tried).map fun alt => ⟨alt, l.attempt, alt :: l.tried, p.metrics.health alt⟩

/-- The except clauses. -/
def Handle.caught (c : Handle) (p : Proxy F) (l : Loop) : Raised → Proxy F × Handle
  | .network text =>
    let p := p.finish l.backend true 0
    let c := c.settle .failed
    let gone := (p, c.reply (.badGateway text l.backend))
    if l.attempt = 0 then
      match l.alternative p with
      | some l => c.next retryIdempotentOnly p { l with attempt := l.attempt + 1 }
      | none => gone
    else gone
  | .other text => (p.finish l.backend true 0, (c.settle .failed).reply (.badGateway text l.backend))
  | .cancelled => (p, { c.settle .failed with phase := .raised .cancelled })

/-- The block of the response, up to its end. -/
def Handle.received (c : Handle) (p : Proxy F) (l : Loop) (response : Response) : Proxy F × Handle :=
  let p := p.finish l.backend response.isError response.body.length
  let c := c.settle (.responded response)
  let done := (p, { c with phase := .closing l (.return_ (.upstream response l.backend (l.attempt + 1))) })
  if response.isError ∧ l.attempt = 0 then
    match l.alternative p with
    | some l => (p, { c with phase := .closing l .continue_ })
    | none => done
  else done

def routingKey (r : Request) (reqCount : Nat) : Bytes :=
  r.remote ++ ascii ":" ++ r.path ++ ascii ":" ++ decimal (reqCount % 1000)

/-- `buckets[backend_id]` of a proxy without backends is an IndexError. -/
def Handle.arrive [GoMath F] (c : Handle) (p : Proxy F) (now : F) : Proxy F × Handle :=
  let p := { p with reqCount := p.reqCount + 1 }
  let backend := p.ring.route (routingKey c.request p.reqCount)
  if backend < p.ring.n then
    let (bucket, ok) := (p.buckets backend).consume now
    let p := { p with buckets := Function.update p.buckets backend bucket }
    if ok then
      (p, { c with phase := .readingBody backend (p.metrics.health backend), granted := backend :: c.granted })
    else (p, c.reply (.rateLimited backend))
  else (p, { c with phase := .raised (.other (ascii "list index out of range")) })

def Handle.resume [GoMath F] (c : Handle) (p : Proxy F) (input : Input F) : Option (Proxy F × Handle) :=
  match c.phase, input with
  | .arrived, .arrives now => some (c.arrive p now)
  | .readingBody backend healthy, .bodyRead => some (c.next retryIdempotentOnly p ⟨backend, 0, [backend], healthy⟩)
  -- nothing is caught before the loop
  | .readingBody _ _, .raises raised => some (p, { c with phase := .raised raised })
  | .requesting l, .responds status => some (p, { c with phase := .readingReply l status })
  | .requesting l, .raises raised => some (c.caught retryIdempotentOnly p l raised)
  | .readingReply l status, .received body => some (c.received p l ⟨status, body⟩)
  -- the response is closed before the clause that catches this runs
  | .readingReply l _, .raises raised => some (p, { c with phase := .closing l (.raise raised) })
  | .closing l .continue_, .closed => some (c.next retryIdempotentOnly p { l with attempt := l.attempt + 1 })
  | .closing _ (.return_ reply), .closed => some (p, c.reply reply)
  | .closing l (.raise raised), .closed => some (c.caught retryIdempotentOnly p l raised)
  | .closing l _, .raises raised => some (c.caught retryIdempotentOnly p l raised)
  | _, _ => none

/-! ### What a call does until it waits again -/

theorem arriveCases [GoMath F] (c : Handle) (p : Proxy F) (now : F) : ∃ q : Proxy F, q.metrics = p.metrics ∧
    ((∃ backend healthy, c.arrive p now =
        (q, { c with phase := .readingBody backend healthy, granted := backend :: c.granted })) ∨
      (∃ backend, c.arrive p now = (q, c.reply (.rateLimited backend))) ∨
      c.arrive p now = (q, { c with phase := .raised (.other (ascii "list index out of range")) })) := by
  unfold Handle.arrive
  dsimp only
  split
  · split
    · refine ⟨_, ?_, .inl ⟨_, _, rfl⟩⟩
      rfl
    · refine ⟨_, ?_, .inr (.inl ⟨_, rfl⟩)⟩
      rfl
  · refine ⟨_, ?_, .inr (.inr rfl)⟩
    rfl

theorem caughtCases (c : Handle) (p : Proxy F) (l : Loop) (text : Bytes) :
    (∃ alt, l.alternative (p.finish l.backend true 0) = some alt ∧
      c.caught retryIdempotentOnly p l (.network text) =
        (c.settle .failed).next retryIdempotentOnly (p.finish l.backend true 0) { alt with attempt := alt.attempt + 1 }) ∨
    c.caught retryIdempotentOnly p l (.network text) =
      (p.finish l.backend true 0, (c.settle .failed).reply (.badGateway text l.backend)) := by
  rw [Handle.caught]
  split
  · split
    · exact .inl ⟨_, ‹_›, rfl⟩
    · exact .inr rfl
  · exact .inr rfl

theorem receivedCases (c : Handle) (p : Proxy F) (l : Loop) (response : Response) :
    let q := p.finish l.backend response.isError response.body.length
    let d := c.settle (.responded response)
    (∃ alt, l.alternative q = some alt ∧ c.received p l response = (q, { d with phase := .closing alt .continue_ })) ∨
    c.received p l response =
      (q, { d with phase := .closing l (.return_ (.upstream response l.backend (l.attempt + 1))) }) := by
  unfold Handle.received
  dsimp only
  split
  · split
    · exact .inl ⟨_, ‹_›, rfl⟩
    · exact .inr rfl
  · exact .inr rfl

/-- What a call can wait for, and what follows. -/
inductive Resumed [GoMath F] (c : Handle) (p : Proxy F) : Input F → Proxy F × Handle → Prop where
  | arrives {now} (at_ : c.phase = .arrived) : Resumed c p (.arrives now) (c.arrive p now)
  | begins {backend healthy} (at_ : c.phase = .readingBody backend healthy) :
      Resumed c p .bodyRead (c.next retryIdempotentOnly p ⟨backend, 0, [backend], healthy⟩)
  | bodyLost {backend healthy raised} (at_ : c.phase = .readingBody backend healthy) :
      Resumed c p (.raises raised) (p, { c with phase := .raised raised })
  | responds {l status} (at_ : c.phase = .requesting l) :
      Resumed c p (.responds status) (p, { c with phase := .readingReply l status })
  | refused {l raised} (at_ : c.phase = .requesting l) :
      Resumed c p (.raises raised) (c.caught retryIdempotentOnly p l raised)
  | received {l status body} (at_ : c.phase = .readingReply l status) :
      Resumed c p (.received body) (c.received p l ⟨status, body⟩)
  | cut {l status raised} (at_ : c.phase = .readingReply l status) :
      Resumed c p (.raises raised) (p, { c with phase := .closing l (.raise raised) })
  | continues {l} (at_ : c.phase = .closing l .continue_) :
      Resumed c p .closed (c.next retryIdempotentOnly p { l with attempt := l.attempt + 1 })
  | returns {l reply} (at_ : c.phase = .closing l (.return_ reply)) : Resumed c p .closed (p, c.reply reply)
  | leaves {l raised} (at_ : c.phase = .closing l (.raise raised)) :
      Resumed c p .closed (c.caught retryIdempotentOnly p l raised)
  | disturbed {l exit raised} (at_ : c.phase = .closing l exit) :
      Resumed c p (.raises raised) (c.caught retryIdempotentOnly p l raised)

theorem resumeResumed [GoMath F] {c : Handle} {p : Proxy F} {input : Input F} {out : Proxy F × Handle}
    (done : c.resume retryIdempotentOnly p input = some out) :
    Resumed retryIdempotentOnly c p input out := by
  unfold Handle.resume at done
  split at done <;> cases done
  · exact .arrives ‹_›
  · exact .begins ‹_›
  · exact .bodyLost ‹_›
  · exact .responds ‹_›
  · exact .refused ‹_›
  · exact .received ‹_›
  · exact .cut ‹_›
  · exact .continues ‹_›
  · exact .returns ‹_›
  · exact .leaves ‹_›
  · exact .disturbed ‹_›

/-! ### Interleaved calls -/

structure World (F : Type) where
  proxy : Proxy F
  calls : List Handle

/-- A call runs on, or the health checker, the operator or the control loop steps in. -/
inductive Event (F : Type) where
  | call (i : Nat) (input : Input F)
  | setHealth (backendId : Int) (healthy : Bool)
  | setVnodes (backendId count : Int)
  | setRate (backendId : Nat) (rate : F)

def World.step [GoMath F] (w : World F) : Event F → Option (World F)
  | .call i input => do
    let c ← w.calls[i]?
    let (p, c) ← c.resume retryIdempotentOnly w.proxy input
    return ⟨p, w.calls.set i c⟩
  | .setHealth backendId healthy => do
    let p ← w.proxy.setHealth backendId healthy
    return { w with proxy := p }
  | .setVnodes backendId count => do
    let p ← w.proxy.setVnodes backendId count
    return { w with proxy := p }
  | .setRate backendId rate => some { w with proxy := w.proxy.setRate backendId rate }

end Handle

def Request.arriving (r : Request) : Handle := ⟨r, .arrived, [], []⟩

end OmegaLb.OmegaProxy
