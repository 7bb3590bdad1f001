import OmegaLb.KernelMaps

/-! The circuit of a backend, one word that three writers share: metrics_collector on every CPU,
tick and NotifyProbeResult of circuit_breaker.go. A read or a write of the map is a step, so
each writer decides from a read that may be stale. -/
namespace OmegaLb.CircuitBreaker
open StepRun (Run Guarded Does)
open KernelMaps (Fits updateElem)

inductive Circuit where
  | closed
  | opened
  | halfOpen
  deriving DecidableEq, Repr

structure BackendCircuit where
  state : Circuit := .closed
  openedAt : Int := 0
  halfOpenAt : Int := 0
  deriving DecidableEq, Repr

/-- A run of metrics_collector that is not over: `trips` and `closes` are about to write the
circuit, `succeeds` is about to read it. -/
inductive Pending where
  | trips
  | succeeds
  | closes
  deriving DecidableEq, Repr

structure Completion where
  instanceId : UInt32
  pending : Pending
  deriving DecidableEq, Repr

/-- Who holds cb.mu. A tick has read the clock when it takes the lock; it visits each entry once. -/
inductive Holder where
  | free
  | ticking (now : Int) (visited : List UInt32)
  | halfOpening (now : Int) (visited : List UInt32) (backendID : UInt32)
  | reopening (backendID : UInt32)
  deriving DecidableEq, Repr

/-- `consecutiveErrors` is that field of instance_stats_map: an entry holds a slot for every CPU. -/
structure World where
  circuits : GoMap UInt32 Circuit
  consecutiveErrors : GoMap UInt32 (Nat → UInt32)
  completions : List Completion
  states : GoMap UInt32 BackendCircuit
  openTimeout : Int
  notified : List UInt32
  holder : Holder
  clock : Int

def circuitTripThreshold : UInt32 := 5

def newCircuitBreakerManager (circuits : GoMap UInt32 Circuit)
    (consecutiveErrors : GoMap UInt32 (Nat → UInt32)) (clock : Int) : World where
  circuits := circuits
  consecutiveErrors := consecutiveErrors
  completions := []
  states := ∅
  openTimeout := 10 * 1000000000
  notified := []
  holder := .free
  clock := clock

def World.circuit (w : World) (id : UInt32) : Circuit := (w.circuits.lookup id).getD .closed

def World.write (w : World) (id : UInt32) (state : Circuit) : World :=
  { w with circuits := w.circuits.insert id state }

/-- A write that is lost where the map is full. -/
def World.put (w : World) (id : UInt32) (state : Circuit) : World :=
  { w with circuits := updateElem w.circuits id state }

/-! ### metrics_collector -/

def setSlot (slots : Nat → UInt32) (cpu : Nat) (n : UInt32) : Nat → UInt32 :=
  fun k => if k = cpu then n else slots k

/-- The part before the circuit is touched. An instance without statistics gets them, and its
circuit is left alone. -/
def World.complete (w : World) (cpu : Nat) (id : UInt32) (isError : Bool) : World :=
  if id = 0 then w
  else
    match w.consecutiveErrors.lookup id with
    | none => { w with consecutiveErrors := updateElem w.consecutiveErrors id fun _ => 0 }
    | some slots =>
      if isError then
        let n := slots cpu + 1
        let w := { w with consecutiveErrors := w.consecutiveErrors.insert id (setSlot slots cpu n) }
        if n ≥ circuitTripThreshold then { w with completions := w.completions ++ [⟨id, .trips⟩] } else w
      else
        { w with
          consecutiveErrors := w.consecutiveErrors.insert id (setSlot slots cpu 0)
          completions := w.completions ++ [⟨id, .succeeds⟩] }

def World.collect (w : World) (k : Nat) (c : Completion) : World :=
  match c.pending with
  | .trips => { w.put c.instanceId .opened with completions := w.completions.eraseIdx k }
  | .succeeds =>
    if w.circuits.lookup c.instanceId = some .closed then
      { w with completions := w.completions.eraseIdx k }
    else { w with completions := w.completions.set k { c with pending := .closes } }
  | .closes => { w.put c.instanceId .closed with completions := w.completions.eraseIdx k }

/-! ### tick and NotifyProbeResult -/

def World.record (w : World) (id : UInt32) (bc : BackendCircuit) : World :=
  { w with states := w.states.insert id bc }

def World.visit (w : World) (now : Int) (visited : List UInt32) (id : UInt32) (cs : Circuit) : World :=
  let bc := (w.states.lookup id).getD {}
  let w := { w with holder := .ticking now (id :: visited) }
  match cs with
  | .opened =>
    if bc.state ≠ .opened then w.record id { bc with state := .opened, openedAt := now }
    else if now - bc.openedAt ≥ w.openTimeout then
      { w.record id bc with holder := .halfOpening now (id :: visited) id }
    else w.record id bc
  | .halfOpen =>
    if bc.state ≠ .halfOpen then w.record id { bc with state := .halfOpen, halfOpenAt := now }
    else w.record id bc
  | .closed =>
    if bc.state = .halfOpen ∨ bc.state = .opened then
      { w.record id { bc with state := .closed } with notified := w.notified ++ [id] }
    else w.record id bc

def World.halfOpened (w : World) (now : Int) (id : UInt32) : World :=
  { w.write id .halfOpen with
    states := GoMap.modify w.states id fun bc => { bc with state := .halfOpen, halfOpenAt := now } }

def World.reopened (w : World) (id : UInt32) : World :=
  { w with states := GoMap.modify w.states id fun bc =>
      { bc with state := .opened, openedAt := w.clock } }

/-! ### Steps -/

/-- `written` says whether the map update succeeds. -/
inductive Event where
  | pass (now : Int)
  | complete (cpu : Nat) (instanceId : UInt32) (isError : Bool)
  | collect (k : Nat)
  | tick
  | visit (backendID : UInt32)
  | writeHalfOpen (written : Bool)
  | tickDone
  | notifyProbeResult (backendID : UInt32) (success written : Bool)
  | recordReopen
  deriving DecidableEq

def exec (w : World) (e : Event) : Option World :=
  match e, w.holder with
  | .pass now, _ => if w.clock ≤ now then some { w with clock := now } else none
  | .complete cpu id isError, _ => some (w.complete cpu id isError)
  | .collect k, _ => (w.completions[k]?).map (w.collect k)
  | .tick, .free => some { w with holder := .ticking w.clock [] }
  | .visit id, .ticking now visited =>
    if id ∈ visited then none else (w.circuits.lookup id).map (w.visit now visited id)
  | .writeHalfOpen written, .halfOpening now visited id =>
    let w := { w with holder := .ticking now visited }
    some (if written then w.halfOpened now id else w)
  | .tickDone, .ticking _ _ => some { w with holder := .free }
  | .notifyProbeResult id success written, holder =>
    -- a success returns before the lock
    if success then some w
    else if holder = .free then
      some (if written then { w.write id .opened with holder := .reopening id } else w)
    else none
  | .recordReopen, .reopening id => some { w.reopened id with holder := .free }
  | _, _ => none

/-! ### The transitions of the word -/

def Moves : Circuit → Circuit → Prop
  | .closed, .closed | .closed, .opened => True
  | .opened, .opened | .opened, .halfOpen => True
  | .halfOpen, _ => True
  | _, _ => False

def Legal (w next : World) : Prop := ∀ id, Moves (w.circuit id) (next.circuit id)

/-- No success closes a circuit that is open when its write lands, and no tick half-opens one
that has been closed since the tick read it. -/
def Timely (w : World) (e : Event) : Prop :=
  match e, w.holder with
  | .collect k, _ => ∀ c, w.completions[k]? = some c → c.pending = .closes →
      w.circuit c.instanceId ≠ .opened
  | .writeHalfOpen written, .halfOpening _ _ id => written = true → w.circuit id ≠ .closed
  | _, _ => True

theorem movesRefl (c : Circuit) : Moves c c := by cases c <;> trivial

theorem legalSame {w next : World} (same : next.circuits = w.circuits) : Legal w next := by
  intro id
  have circuit : next.circuit id = w.circuit id := by simp only [World.circuit, same]
  rw [circuit]
  exact movesRefl _

theorem writeCircuit (w : World) (id k : UInt32) (state : Circuit) :
    (w.write id state).circuit k = if k = id then state else w.circuit k := by
  unfold World.write World.circuit
  dsimp only
  split
  · subst k
    rw [AList.lookup_insert, Option.getD_some]
  · rw [AList.lookup_insert_ne ‹_›]

theorem writtenCircuit {w next : World} {id : UInt32} {state : Circuit}
    (written : next.circuits = (w.write id state).circuits) (k : UInt32) :
    next.circuit k = if k = id then state else w.circuit k := by
  rw [← writeCircuit]
  simp only [World.circuit, written]

theorem putWritten {w : World} {id : UInt32} {state : Circuit} (fits : Fits w.circuits id) :
    (w.put id state).circuits = (w.write id state).circuits := if_pos fits

theorem putLost {w : World} {id : UInt32} {state : Circuit} (full : ¬ Fits w.circuits id) :
    (w.put id state).circuits = w.circuits := if_neg full

theorem fullClosed {w : World} {id : UInt32} (full : ¬ Fits w.circuits id) :
    w.circuit id = .closed := by
  have missing : w.circuits.lookup id = none := AList.lookup_eq_none.mpr fun member => full (.inl member)
  unfold World.circuit
  rw [missing]
  rfl

theorem legalWrite (w : World) (id : UInt32) (state : Circuit) {next : World}
    (written : next.circuits = (w.write id state).circuits) :
    Legal w next ↔ Moves (w.circuit id) state := by
  have after := writtenCircuit written
  constructor
  · intro legal
    have here := legal id
    rwa [after, if_pos rfl] at here
  · intro moves k
    rw [after]
    split
    · subst k
      exact moves
    · exact movesRefl _

/-- What the kernel leaves alone: the records of the manager, its lock and the clock. -/
structure SameManager (w next : World) : Prop where
  states : next.states = w.states
  openTimeout : next.openTimeout = w.openTimeout
  holder : next.holder = w.holder
  clock : next.clock = w.clock

theorem completeFrame (w : World) (cpu : Nat) (id : UInt32) (isError : Bool) :
    (w.complete cpu id isError).circuits = w.circuits ∧ SameManager w (w.complete cpu id isError) := by
  unfold World.complete
  split
  · exact ⟨rfl, rfl, rfl, rfl, rfl⟩
  · split
    · exact ⟨rfl, rfl, rfl, rfl, rfl⟩
    · split
      · dsimp only
        split <;> exact ⟨rfl, rfl, rfl, rfl, rfl⟩
      · exact ⟨rfl, rfl, rfl, rfl, rfl⟩

theorem collectFrame (w : World) (k : Nat) (c : Completion) : SameManager w (w.collect k c) := by
  unfold World.collect
  split
  · exact ⟨rfl, rfl, rfl, rfl⟩
  · split <;> exact ⟨rfl, rfl, rfl, rfl⟩
  · exact ⟨rfl, rfl, rfl, rfl⟩

theorem visitCircuits (w : World) (now : Int) (visited : List UInt32) (id : UInt32) (cs : Circuit) :
    (w.visit now visited id cs).circuits = w.circuits := by
  unfold World.visit
  cases cs <;> dsimp only <;> split <;> try rfl
  split <;> rfl

theorem collectExact {w : World} {k : Nat} {c : Completion} (here : w.completions[k]? = some c) :
    Legal w (w.collect k c) ↔ Timely w (.collect k) := by
  have timely : Timely w (.collect k) ↔ (c.pending = .closes → w.circuit c.instanceId ≠ .opened) := by
    constructor
    · exact fun condition => condition c here
    · intro condition d there
      rw [here] at there
      cases there
      exact condition
  rw [timely]
  unfold World.collect
  cases pending : c.pending with
  | trips =>
    refine iff_of_true ?_ nofun
    by_cases fits : Fits w.circuits c.instanceId
    · refine (legalWrite w c.instanceId .opened (putWritten fits)).mpr ?_
      cases w.circuit c.instanceId <;> trivial
    · exact legalSame (putLost fits)
  | succeeds =>
    refine iff_of_true (legalSame ?_) nofun
    dsimp only
    split <;> rfl
  | closes =>
    by_cases fits : Fits w.circuits c.instanceId
    · refine (legalWrite w c.instanceId .closed (putWritten fits)).trans ?_
      cases w.circuit c.instanceId <;> simp [Moves]
    · refine iff_of_true (legalSame (putLost fits)) fun _ => ?_
      rw [fullClosed fits]
      nofun

inductive Taken (w : World) : Event → World → Prop where
  | pass {now} (later : w.clock ≤ now) : Taken w (.pass now) { w with clock := now }
  | complete (cpu id isError) : Taken w (.complete cpu id isError) (w.complete cpu id isError)
  | collect {k c} (here : w.completions[k]? = some c) : Taken w (.collect k) (w.collect k c)
  | tick (free : w.holder = .free) : Taken w .tick { w with holder := .ticking w.clock [] }
  | visit {now visited id cs} (held : w.holder = .ticking now visited) (unvisited : id ∉ visited)
      (found : w.circuits.lookup id = some cs) : Taken w (.visit id) (w.visit now visited id cs)
  | halfOpens {now visited id} (held : w.holder = .halfOpening now visited id) :
      Taken w (.writeHalfOpen true) ({ w with holder := .ticking now visited }.halfOpened now id)
  | missesHalfOpen {now visited id} (held : w.holder = .halfOpening now visited id) :
      Taken w (.writeHalfOpen false) { w with holder := .ticking now visited }
  | tickDone {now visited} (held : w.holder = .ticking now visited) :
      Taken w .tickDone { w with holder := .free }
  | probeSucceeded (id written) : Taken w (.notifyProbeResult id true written) w
  | reopens {id} (free : w.holder = .free) :
      Taken w (.notifyProbeResult id false true) { w.write id .opened with holder := .reopening id }
  | missesReopen {id} (free : w.holder = .free) : Taken w (.notifyProbeResult id false false) w
  | recordReopen {id} (held : w.holder = .reopening id) :
      Taken w .recordReopen { w.reopened id with holder := .free }

theorem execTaken {w next : World} {e : Event} (taken : exec w e = some next) : Taken w e next := by
  cases e with
  | pass now =>
    obtain ⟨later, same⟩ := Option.ite_none_right_eq_some.mp taken
    cases same
    exact .pass later
  | complete cpu id isError =>
    cases Option.some.inj taken
    exact .complete cpu id isError
  | collect k =>
    obtain ⟨c, here, same⟩ := Option.map_eq_some_iff.mp taken
    cases same
    exact .collect here
  | notifyProbeResult id success written =>
    cases success with
    | true =>
      cases Option.some.inj taken
      exact .probeSucceeded id written
    | false =>
      obtain ⟨free, same⟩ := Option.ite_none_right_eq_some.mp taken
      cases same
      cases written with
      | true => exact .reopens free
      | false => exact .missesReopen free
  | tick =>
    unfold exec at taken
    cases held : w.holder <;> rw [held] at taken <;> try contradiction
    cases Option.some.inj taken
    exact .tick held
  | visit id =>
    unfold exec at taken
    cases held : w.holder <;> rw [held] at taken <;> try contradiction
    obtain ⟨unvisited, read⟩ := Option.ite_none_left_eq_some.mp taken
    obtain ⟨cs, found, same⟩ := Option.map_eq_some_iff.mp read
    cases same
    exact .visit held unvisited found
  | writeHalfOpen written =>
    unfold exec at taken
    cases held : w.holder <;> rw [held] at taken <;> try contradiction
    cases Option.some.inj taken
    cases written with
    | true => exact .halfOpens held
    | false => exact .missesHalfOpen held
  | tickDone =>
    unfold exec at taken
    cases held : w.holder <;> rw [held] at taken <;> try contradiction
    cases Option.some.inj taken
    exact .tickDone held
  | recordReopen =>
    unfold exec at taken
    cases held : w.holder <;> rw [held] at taken <;> try contradiction
    cases Option.some.inj taken
    exact .recordReopen held

theorem execExact {w next : World} {e : Event} (taken : exec w e = some next) :
    Legal w next ↔ Timely w e := by
  cases execTaken taken with
  | pass later => exact iff_of_true (legalSame rfl) trivial
  | complete cpu id isError => exact iff_of_true (legalSame (completeFrame ..).1) trivial
  | collect here => exact collectExact here
  | tick free => exact iff_of_true (legalSame rfl) trivial
  | visit held unvisited found => exact iff_of_true (legalSame (visitCircuits ..)) trivial
  | @halfOpens now visited id held =>
    have timely : Timely w (.writeHalfOpen true) ↔ w.circuit id ≠ .closed := by
      simp only [Timely, held, true_implies]
    rw [timely]
    refine (legalWrite w id .halfOpen rfl).trans ?_
    cases w.circuit id <;> simp [Moves]
  | missesHalfOpen held =>
    have timely : Timely w (.writeHalfOpen false) := by simp [Timely, held]
    exact iff_of_true (legalSame rfl) timely
  | tickDone held => exact iff_of_true (legalSame rfl) trivial
  | probeSucceeded id written => exact iff_of_true (legalSame rfl) trivial
  | @reopens id free =>
    refine iff_of_true ((legalWrite w id .opened rfl).mpr ?_) trivial
    cases w.circuit id <;> trivial
  | missesReopen free => exact iff_of_true (legalSame rfl) trivial
  | recordReopen held => exact iff_of_true (legalSame rfl) trivial

theorem circuitMovesExact (circuits : GoMap UInt32 Circuit)
    (consecutiveErrors : GoMap UInt32 (Nat → UInt32)) (clock : Int) {es w} :
    Run (fun s e t => Does exec s e t ∧ Legal s t)
        (newCircuitBreakerManager circuits consecutiveErrors clock) es w ↔
      Run (Guarded Timely (Does exec))
        (newCircuitBreakerManager circuits consecutiveErrors clock) es w := by
  have kept : ∀ (s : World) e t, True → Does exec s e t → True := fun _ _ _ _ _ => trivial
  have each : ∀ (s : World) e t, True → Does exec s e t → (Legal s t ↔ Timely s e) :=
    fun _ _ _ _ taken => execExact taken
  exact StepRun.eachGuarded kept each trivial

/-! ### A success of a request routed before the trip -/

/-- Instance 1 fails six times on one CPU, the first of which only creates its statistics; then
a request that was routed before the trip succeeds. -/
def lateSuccess : List Event :=
  List.replicate 6 (.complete 0 1 true) ++ [.collect 0, .complete 0 1 false, .collect 0]

theorem lateSuccessCloses : ∃ w next, Run (Does exec) (newCircuitBreakerManager ∅ ∅ 0) lateSuccess w ∧
    exec w (.collect 0) = some next ∧ w.circuit 1 = .opened ∧ next.circuit 1 = .closed ∧
    ¬ Legal w next := by
  have computed : (lateSuccess.foldlM exec (newCircuitBreakerManager ∅ ∅ 0)).any (fun w =>
      (exec w (.collect 0)).any fun next =>
        decide (w.circuit 1 = .opened ∧ next.circuit 1 = .closed)) = true := by decide +kernel
  obtain ⟨w, reached, step⟩ := (Option.any_eq_true _ _).mp computed
  obtain ⟨next, taken, states⟩ := (Option.any_eq_true _ _).mp step
  obtain ⟨opened, closed⟩ := of_decide_eq_true states
  refine ⟨w, next, StepRun.runFoldlM reached, taken, opened, closed, fun legal => ?_⟩
  have here := legal 1
  rw [opened, closed] at here
  exact here

end OmegaLb.CircuitBreaker
