import OmegaLb.FlightRecorder
import OmegaLb.GoText
import OmegaLb.RlAgent

/-! The HTTP admin API of server.go. A request comes with a clean path, with what Header.Get and
Values.Get return for it, and with what json.Decode makes of its body for each of the three request
types. The time stamps of the answers and the log are left out. -/
namespace OmegaLb.Admin
open GoText (Bytes ascii decimal digitsValue isDigit)
open Observability (FlightRecorder RoutingDecision)
open Rl (Agent AgentMode)
open RingManager (Backend Manager Runtime)

def defaultRecentHistory : Int := 100
def maxRecentHistory : Int := 1000
def defaultBackendHistory : Int := 50
def maxBackendHistory : Int := 500

def statusOK : Nat := 200
def statusBadRequest : Nat := 400
def statusUnauthorized : Nat := 401
def statusNotFound : Nat := 404
def statusMethodNotAllowed : Nat := 405
def statusServiceUnavailable : Nat := 503

structure ModeRequest (F : Type) where
  mode : Bytes
  weights : List F

structure DrainRequest where
  backendID : UInt32
  draining : Bool
  deriving DecidableEq, Repr

structure Body (F : Type) where
  mode : Except Bytes (ModeRequest F)
  drain : Except Bytes DrainRequest
  drainAll : Except Bytes Bool

structure Request (F : Type) where
  method : Bytes
  path : Bytes
  adminTokenHeader : Bytes
  authorization : Bytes
  query : Bytes → Bytes
  body : Body F

structure Status where
  nodeID : Bytes
  isLeader : Bool
  lastVersion : Int64
  leaderKey : Bytes
  stateKey : Bytes
  storeType : Bytes
  deriving DecidableEq, Repr

structure RingBackendInfo (F : Type) where
  id : UInt32
  ip : Vector UInt8 4
  port : UInt16
  vnodes : Int
  weightPct : F
  healthy : Bool
  stateful : Bool
  draining : Bool
  activeReqs : Int

structure RingResponse (F : Type) where
  backends : List (RingBackendInfo F)
  totalVnodes : Int
  backendCount : Nat

structure DrainBackendInfo where
  backendID : UInt32
  draining : Bool
  activeReqs : Int
  deriving DecidableEq, Repr

inductive Payload (F : Type) where
  | text (message : Bytes)
  | apiError (message : Bytes)
  | healthz
  | decisions (listed : List RoutingDecision)
  | mode (mode modelVersion : Bytes)
  | ring (report : RingResponse F)
  | drains (infos : List DrainBackendInfo)
  | drained (info : DrainBackendInfo)
  | drainedAll (draining : Bool) (backendCount : Int)
  | consensus (status : Status)

structure Response (F : Type) where
  status : Nat
  payload : Payload F

structure Server (F : Type) where
  token : Bytes
  recorder : Option FlightRecorder
  agent : Option (Agent F)
  modelVersion : Bytes
  ring : Option (Manager F)
  coordinator : Option Status

/-! ### Strings -/

/-- unicode.IsSpace, as the encodings of its code points. -/
def spaces : List Bytes :=
  ([9, 10, 11, 12, 13, 32] : List UInt8).map (fun b => [b]) ++
    [[0xC2, 0x85], [0xC2, 0xA0], [0xE1, 0x9A, 0x80]] ++
    (List.range 11).map (fun i => [0xE2, 0x80, 0x80 + UInt8.ofNat i]) ++
    [[0xE2, 0x80, 0xA8], [0xE2, 0x80, 0xA9], [0xE2, 0x80, 0xAF], [0xE2, 0x81, 0x9F], [0xE3, 0x80, 0x80]]

/-- `s` without the members of `units` it starts with, in `left` rounds. -/
def trimFrom (units : List Bytes) : Nat → Bytes → Bytes
  | 0, s => s
  | left + 1, s =>
    match units.find? (·.isPrefixOf s) with
    | some unit => trimFrom units left (s.drop unit.length)
    | none => s

def trimSpace (s : Bytes) : Bytes :=
  let s := trimFrom spaces s.length s
  (trimFrom (spaces.map List.reverse) s.length s.reverse).reverse

def toLower (b : UInt8) : UInt8 := if 65 ≤ b ∧ b ≤ 90 then b + 32 else b

/-- strconv.Atoi; `none` is its error. -/
def atoi (s : Bytes) : Option Int :=
  let magnitude (ds : Bytes) : Option Nat :=
    if ds ≠ [] ∧ ds.all isDigit then some (digitsValue ds) else none
  let value := match s with
    | 43 :: ds => (magnitude ds).map fun n => (n : Int)
    | 45 :: ds => (magnitude ds).map fun n => -(n : Int)
    | ds => (magnitude ds).map fun n => (n : Int)
  value.filter fun n => FitsInt n

def parsePositiveInt (values : Bytes → Bytes) (key : Bytes) (defaultValue maxValue : Int) : Int :=
  match atoi (values key) with
  | none => defaultValue
  | some parsed => if parsed > 0 then (if parsed > maxValue then maxValue else parsed) else defaultValue

def parseUint32 (values : Bytes → Bytes) (key : Bytes) : Except Bytes UInt32 :=
  let idStr := values key
  if idStr = [] then .error (ascii "missing query param: " ++ key)
  else if idStr.all isDigit ∧ digitsValue idStr < 2 ^ 32 then .ok (UInt32.ofNat (digitsValue idStr))
  else .error (ascii "invalid " ++ key ++ ascii ": must be uint32")

/-! ### The ring report -/

section Ring
variable {F : Type} [GoFloat F]

def ringInfo (b : Backend) (weightPct : F) : RingBackendInfo F :=
  ⟨b.id, b.ip, b.port, b.vnodeCount, weightPct, b.health, b.stateful, b.draining, b.activeReqs⟩

/-- The two loops of handleRing over the copies that BackendInfo has returned. -/
def ringReport (infos : List Backend) : RingResponse F :=
  let total := infos.foldl (fun total b => if b.health && !b.draining then total + b.vnodeCount else total) 0
  let backends := infos.map fun b =>
    ringInfo b <|
      if !b.health || b.draining || total = 0 then GoFloat.lit 0
      else GoFloat.ofInt b.vnodeCount / GoFloat.ofInt total * GoFloat.lit 100.0
  ⟨backends, total, backends.length⟩

end Ring

/-! ### Who asks -/

section Model
variable {F : Type} [GoMath F]

def requestToken (r : Request F) : Bytes :=
  if r.adminTokenHeader ≠ [] then r.adminTokenHeader
  else if (r.authorization.take 7).map toLower = ascii "bearer " then trimSpace (r.authorization.drop 7)
  else []

/-- Whether requireAuth runs the handler. -/
def Server.authorised (s : Server F) (r : Request F) : Bool :=
  s.token = [] || (requestToken r ≠ [] && requestToken r = s.token)

/-! ### The handlers -/

def get : Bytes := ascii "GET"
def post : Bytes := ascii "POST"

def plain (status : Nat) (message : String) : Response F := ⟨status, .text (ascii message)⟩

def jsonError (status : Nat) (message : Bytes) : Response F := ⟨status, .apiError message⟩

def methodNotAllowed : Response F := plain statusMethodNotAllowed "method not allowed"

def answer (payload : Payload F) : Response F := ⟨statusOK, payload⟩

def handleHealthz (r : Request F) : Response F := if r.method = get then answer .healthz else methodNotAllowed

def handleExplainRecent (s : Server F) (r : Request F) : Go (Response F) :=
  if r.method ≠ get then .ok methodNotAllowed
  else
    let n := parsePositiveInt r.query (ascii "n") defaultRecentHistory maxRecentHistory
    match s.recorder with
    | none => .ok (plain statusServiceUnavailable "flight recorder not available")
    | some recorder => do return answer (.decisions (← recorder.recent n))

def handleExplainBackend (s : Server F) (r : Request F) : Go (Response F) :=
  if r.method ≠ get then .ok methodNotAllowed
  else
    match s.recorder with
    | none => .ok (plain statusServiceUnavailable "flight recorder not available")
    | some recorder =>
      match parseUint32 r.query (ascii "id") with
      | .error message => .ok ⟨statusBadRequest, .text message⟩
      | .ok id => do
        let n := parsePositiveInt r.query (ascii "n") defaultBackendHistory maxBackendHistory
        return answer (.decisions (← recorder.forBackend id n))

def modeString : AgentMode → Bytes
  | .auto => ascii "AUTO"
  | .assisted => ascii "ASSISTED"
  | .manual => ascii "MANUAL"

def modeOf (name : Bytes) : Option AgentMode :=
  if name = ascii "AUTO" then some .auto
  else if name = ascii "ASSISTED" then some .assisted
  else if name = ascii "MANUAL" then some .manual
  else none

def handleGetMode (s : Server F) : Response F :=
  match s.agent with
  | some agent => answer (.mode (modeString agent.mode) s.modelVersion)
  | none => answer (.mode (ascii "AGENT_DISABLED") [])

def handleSetMode (s : Server F) (r : Request F) : Server F × Response F :=
  match s.agent with
  | none => (s, plain statusServiceUnavailable "RL agent not enabled")
  | some agent =>
    match r.body.mode with
    | .error message => (s, ⟨statusBadRequest, .text (ascii "invalid JSON body: " ++ message)⟩)
    | .ok req =>
      match modeOf req.mode with
      | none => (s, plain statusBadRequest "invalid mode: must be \"AUTO\", \"ASSISTED\", or \"MANUAL\"")
      | some mode =>
        if mode = .manual ∧ req.weights.length = 0 then
          (s, plain statusBadRequest "MANUAL mode requires \"weights\" array")
        else ({ s with agent := some (agent.setMode mode req.weights) }, answer (.mode req.mode s.modelVersion))

def handleMode (s : Server F) (r : Request F) : Server F × Response F :=
  if r.method = get then (s, handleGetMode s)
  else if r.method = post then handleSetMode s r
  else (s, methodNotAllowed)

/-- Backends and each BackendInfo take the lock anew: `views` are the managers they see. -/
def handleRing (s : Server F) (r : Request F) (rt : Runtime) (views : UInt32 → Manager F) : Response F :=
  if r.method ≠ get then methodNotAllowed
  else
    match s.ring with
    | none => plain statusServiceUnavailable "ring manager not available"
    | some ring => answer (.ring (ringReport ((ring.backendIds rt).filterMap fun id => (views id).backendInfo id)))

def drainInfo (b : Backend) : DrainBackendInfo := ⟨b.id, b.draining, b.activeReqs⟩

def handleGetDrain (ring : Manager F) (rt : Runtime) (views : UInt32 → Manager F) : Response F :=
  answer (.drains (((ring.backendIds rt).filterMap fun id => (views id).backendInfo id).map drainInfo))

def invalidBody (message : Bytes) : Response F := jsonError statusBadRequest (ascii "invalid JSON body: " ++ message)

def handleSetDrain (s : Server F) (ring : Manager F) (r : Request F) (rt : Runtime) (views : UInt32 → Manager F) :
    Server F × Response F :=
  match r.body.drain with
  | .error message => (s, invalidBody message)
  | .ok req =>
    let (ring, found) := ring.setDraining rt req.backendID req.draining
    let s := { s with ring := some ring }
    if !found then
      (s, jsonError statusNotFound (ascii "backend " ++ decimal req.backendID.toNat ++ ascii " not found"))
    else
      let activeReqs := (((views req.backendID).backendInfo req.backendID).map Backend.activeReqs).getD 0
      (s, answer (.drained ⟨req.backendID, req.draining, activeReqs⟩))

def ringUnavailable : Response F := jsonError statusServiceUnavailable (ascii "ring manager not available")

def handleDrain (s : Server F) (r : Request F) (rt : Runtime) (views : UInt32 → Manager F) : Server F × Response F :=
  match s.ring with
  | none => (s, ringUnavailable)
  | some ring =>
    if r.method = get then (s, handleGetDrain ring rt views)
    else if r.method = post then handleSetDrain s ring r rt views
    else (s, jsonError statusMethodNotAllowed (ascii "method not allowed"))

def handleDrainAll (s : Server F) (r : Request F) (rt : Runtime) : Server F × Response F :=
  match s.ring with
  | none => (s, ringUnavailable)
  | some ring =>
    if r.method ≠ post then (s, methodNotAllowed)
    else
      match r.body.drainAll with
      | .error message => (s, invalidBody message)
      | .ok draining =>
        let (ring, count) := ring.setDrainingAll rt draining
        ({ s with ring := some ring }, answer (.drainedAll draining count))

def handleConsensus (s : Server F) (r : Request F) : Response F :=
  if r.method ≠ get then methodNotAllowed
  else
    match s.coordinator with
    | none => plain statusServiceUnavailable "consensus coordinator not enabled (stage < 3)"
    | some status => answer (.consensus status)

/-! ### The routes -/

inductive Route where
  | explainRecent
  | explainBackend
  | mode
  | ring
  | drain
  | drainAll
  | consensus
  deriving DecidableEq, Repr

def routes : List (Bytes × Route) :=
  [(ascii "/admin/explain/recent", .explainRecent), (ascii "/admin/explain/backend", .explainBackend),
    (ascii "/admin/mode", .mode), (ascii "/admin/ring", .ring), (ascii "/admin/drain", .drain),
    (ascii "/admin/drain/all", .drainAll), (ascii "/admin/consensus", .consensus)]

def Server.run (s : Server F) (r : Request F) (rt : Runtime) (views : UInt32 → Manager F) :
    Route → Go (Server F × Response F)
  | .explainRecent => do return (s, ← handleExplainRecent s r)
  | .explainBackend => do return (s, ← handleExplainBackend s r)
  | .mode => .ok (handleMode s r)
  | .ring => .ok (s, handleRing s r rt views)
  | .drain => .ok (handleDrain s r rt views)
  | .drainAll => .ok (handleDrainAll s r rt)
  | .consensus => .ok (s, handleConsensus s r)

def unauthorized : Response F :=
  jsonError statusUnauthorized (ascii "unauthorized: missing or invalid admin token")

/-- The mux of Run. -/
def Server.serve (s : Server F) (r : Request F) (rt : Runtime) (views : UInt32 → Manager F) :
    Go (Server F × Response F) :=
  if r.path = ascii "/admin/healthz" then .ok (s, handleHealthz r)
  else
    match routes.find? (·.1 = r.path) with
    | none => .ok (s, plain statusNotFound "404 page not found")
    | some (_, route) => if s.authorised r then s.run r rt views route else .ok (s, unauthorized)

end Model

end OmegaLb.Admin
