import OmegaLb.BackendAggregates
import OmegaLb.ChainCounts
import OmegaLb.FlightRecorder

/-! From a CPU's measurement to the daemon's numbers: metrics_collector writes event_samples to the
ring buffer, Run of collector.go reads and decodes them, and hands each to Ingest and to the
flight recorder's hook. Waiting for the pinned map and the log lines are left out. -/
namespace OmegaLb.EventPipeline
open BoundedRing (lastOf)
open DataPlane ChainOrder KernelMaps MetricsSteps RelayChain
open EventFormat (Sample decoded emittedDecoded eventMembers eventSampleSize parseEventSample shortRejected)
open Metrics (BackendStats ingest)
open Observability (FlightRecorder decision lastDecisions newFlightRecorder retained)
open StepRun (Run)

/-- The collector and the recorder behind its hook. -/
structure Watch (F : Type) where
  backends : Metrics.Collector F
  onSample : Option FlightRecorder

/-- What Read of the ring buffer's reader returns. -/
inductive Read where
  | record (rawSample : List UInt8)
  | failed

section
variable {F : Type} [GoFloat F]

def metric (s : Sample) : Metrics.Sample := ⟨s.instanceID, s.latencyNs, s.error⟩

def Watch.receive (c : Watch F) (s : Sample) : Watch F where
  backends := ingest c.backends (metric s)
  onSample := c.onSample.map (·.record s)

/-- The loop of Run; without a further read it blocks. -/
def Watch.run (c : Watch F) : List Read → Go (Watch F)
  | [] => .ok c
  | .failed :: _ => .ok c
  | .record raw :: reads => do
    match ← parseEventSample raw with
    | none => c.run reads
    | some s => (c.receive s).run reads

/-- As New of daemon.go wires them. -/
def Watch.new (capacity : Int) : Watch F := ⟨∅, some (newFlightRecorder capacity)⟩

def requestCount (c : Watch F) (id : UInt32) : Nat :=
  ((c.backends.lookup id).map BackendStats.requestCount).getD 0

/-- A percentage. -/
def errorRate (c : Watch F) (id : UInt32) : F :=
  match c.backends.lookup id with
  | none => GoFloat.lit 0
  | some stats => stats.errorRate1m * GoFloat.lit 100

end

/-! ### Run of the collector -/

/-- The reads give the events in their order, whatever fills their padding, and between them
records that are too short. -/
inductive Carries : List Read → List EventSample → Prop where
  | nil : Carries [] []
  | event {reads events} (v : EventSample) (filler : Nat → UInt8) (trailing : List UInt8)
      (rest : Carries reads events) :
      Carries (.record (StructLayout.encode filler (eventMembers v) ++ trailing) :: reads) (v :: events)
  | malformed {reads events} {raw : List UInt8} (short : raw.length < eventSampleSize)
      (rest : Carries reads events) : Carries (.record raw :: reads) events

section
variable {F : Type} [GoFloat F]

theorem runCarried {reads : List Read} {events : List EventSample} (carries : Carries reads events) (c : Watch F) :
    c.run reads = .ok ((events.map decoded).foldl Watch.receive c) := by
  induction carries generalizing c with
  | nil => rfl
  | event v filler trailing rest ih =>
    rw [Watch.run, emittedDecoded]
    exact ih _
  | malformed short rest ih =>
    rw [Watch.run, shortRejected short]
    exact ih _

theorem receiveCount (c : Watch F) (s : Sample) (id : UInt32) :
    requestCount (c.receive s) id = requestCount c id + if s.instanceID = id then 1 else 0 := by
  unfold requestCount Watch.receive ingest
  by_cases own : s.instanceID = id
  · subst own
    rw [show (metric s).instanceID = s.instanceID from rfl, AList.lookup_insert, if_pos rfl]
    cases c.backends.lookup s.instanceID <;> rfl
  · have apart : id ≠ (metric s).instanceID := Ne.symm own
    rw [AList.lookup_insert_ne apart, if_neg own]
    rfl

theorem receivesCount (c : Watch F) (samples : List Sample) (id : UInt32) :
    requestCount (samples.foldl Watch.receive c) id =
      requestCount c id + samples.countP fun s => s.instanceID = id := by
  induction samples generalizing c with
  | nil => rfl
  | cons s rest ih =>
    rw [List.foldl_cons, ih, receiveCount, List.countP_cons]
    simp only [decide_eq_true_eq]
    omega

theorem receivesRecord (c : Watch F) (samples : List Sample) :
    (samples.foldl Watch.receive c).onSample = c.onSample.map (samples.foldl FlightRecorder.record ·) := by
  induction samples generalizing c with
  | nil => simp
  | cons s rest ih =>
    rw [List.foldl_cons, ih, Watch.receive, Option.map_map]
    rfl

end

/-! ### What the programs emit -/

/-- The step ends a measurement of `id` that finds room in the ring buffer. -/
def measures (id : UInt32) (e : Move × Mark) : Bool :=
  match e.1, e.2.did with
  | .go _ o, .emitted at_ _ => at_ = id ∧ o.reading.reserved
  | _, _ => false

/-- The step ends a measurement that saw an error. -/
def readsError (e : Move × Mark) : Bool :=
  match e.2.did with
  | .emitted _ isError => isError
  | _ => false

structure Emits (w next : World) (e : Move × Mark) (new : List EventSample) : Prop where
  events : next.kernel.events = w.kernel.events ++ new
  counted : ∀ id, new.countP (·.instanceId = id) = if measures id e then 1 else 0
  errors : readsError e = false → ∀ v ∈ new, v.error = 0

theorem emitsNothing {w next : World} {e : Move × Mark} (same : next.kernel.events = w.kernel.events)
    (unmeasured : ∀ id, measures id e = false) : Emits w next e [] := by
  refine ⟨same.trans (List.append_nil _).symm, fun id => ?_, fun _ v inside => absurd inside List.not_mem_nil⟩
  rw [unmeasured id]
  rfl

theorem emitEvents (k : Kernel) (id : UInt32) (latencyNs : UInt64) (o : Reading) :
    ∃ circuitState, (emit k id latencyNs o).events = k.events ++
      if o.reserved then [{
        instanceId := id, latencyNs := latencyNs, error := if o.isError then 1 else 0,
        circuitState := circuitState, timestampNs := o.now }]
      else [] := by
  unfold emit
  split
  · exact ⟨_, rfl⟩
  · exact ⟨0, (List.append_nil _).symm⟩

theorem emitEmits (w : World) (cpu : Nat) (skops : SockOps) (o : Outside) (s : Seen) (latencyNs : UInt64)
    (chain : Option Chain) : ∃ new, Emits w
      ((w.withKernel ((Stage.emitting s latencyNs).step w.kernel cpu o.reading.reserved).1).goOn cpu chain)
      (.go cpu o, ⟨cpu, skops, .emitted s.id s.isError, none⟩) new := by
  obtain ⟨circuitState, events⟩ := emitEvents w.kernel s.id latencyNs ⟨s.now, s.isError, o.reading.reserved⟩
  refine ⟨_, events, fun id => ?_, fun correct v inside => ?_⟩
  · by_cases room : o.reading.reserved = true
    · rw [if_pos room, List.countP_singleton]
      simp [measures, room]
    · rw [if_neg room]
      simp [measures, room]
  · have success : s.isError = false := correct
    split at inside
    · rw [List.mem_singleton.mp inside]
      exact if_neg (by simp [success])
    · exact absurd inside List.not_mem_nil

theorem stepEmits {w next : World} {e : Move × Mark} (step : Steps w e next) : ∃ new, Emits w next e new := by
  obtain ⟨move, mark⟩ := e
  cases move with
  | send cpu skops =>
    obtain ⟨_, ⟨rfl, rfl⟩ | ⟨rfl, rfl⟩⟩ := stepsSend step <;> exact ⟨[], emitsNothing rfl fun _ => rfl⟩
  | control c =>
    obtain ⟨rfl, rfl⟩ := stepsControl step
    exact ⟨[], emitsNothing rfl fun _ => rfl⟩
  | go cpu o =>
    obtain ⟨skops, point, did, _, rfl, advanced⟩ := stepsGo step
    cases advanced with
    | measured stage =>
      cases stage with
      | emitting s latencyNs => exact emitEmits ..
      | judging s stats =>
        refine ⟨[], emitsNothing ?_ fun _ => rfl⟩
        rw [kernelGoOn, kernelWith]
        rw [Stage.step]
        split
        · rfl
        · split <;> rfl
      | creating | closing => exact ⟨[], emitsNothing rfl fun _ => rfl⟩
    | relayed =>
      refine ⟨[], emitsNothing ?_ fun _ => rfl⟩
      rw [kernelFollow]
      unfold World.splice
      dsimp only
      split <;> rfl
    | unlimited | admitted | overdrawn | refunded | dropped | counted | unseen | inserted | stopped | routed | searched | ringless | looked
    | chosen | unrouted | picked | pickedZero | unspliced | accounted | missed | unmeasured =>
      exact ⟨[], emitsNothing rfl fun _ => rfl⟩

theorem runEmits {w final : World} {es : List (Move × Mark)} (run : Run Steps w es final) :
    ∃ new, final.kernel.events = w.kernel.events ++ new ∧
      (∀ id, new.countP (·.instanceId = id) = es.countP (measures id)) ∧
      ((∀ e ∈ es, readsError e = false) → ∀ v ∈ new, v.error = 0) := by
  induction run with
  | nil w => exact ⟨[], (List.append_nil _).symm, fun _ => rfl, fun _ v inside => absurd inside List.not_mem_nil⟩
  | @cons w e t es final head tail ih =>
    obtain ⟨first, emits⟩ := stepEmits head
    obtain ⟨later, events, counted, errors⟩ := ih
    refine ⟨first ++ later, ?_, fun id => ?_, fun correct v inside => ?_⟩
    · rw [events, emits.events, List.append_assoc]
    · rw [List.countP_append, emits.counted, counted, List.countP_cons, Nat.add_comm]
    · rw [List.forall_mem_cons] at correct
      rcases List.mem_append.mp inside with early | late
      · exact emits.errors correct.1 v early
      · exact errors correct.2 v late

/-! ### From the CPUs to the daemon -/

theorem recentEvents (capacity : Int) (events : List EventSample) (n : Int) :
    ((events.map decoded).foldl FlightRecorder.record (newFlightRecorder capacity)).recent n =
      .ok (lastDecisions (lastOf (retained capacity) (events.map fun v => decision (decoded v))) n) := by
  obtain ⟨keeps, same⟩ := Observability.recordsKeep (Observability.newKeeps capacity) (events.map decoded)
  have answer := Observability.recentLast keeps n
  rw [same] at answer
  simpa [List.map_map, Function.comp_def, newFlightRecorder] using answer

theorem lastMember {α : Type} {capacity : Nat} {all : List α} {x : α} (inside : x ∈ lastOf capacity all) : x ∈ all :=
  List.mem_of_mem_drop inside

theorem lastDecisionsMember {kept : List Observability.RoutingDecision} {n : Int}
    {d : Observability.RoutingDecision} (inside : d ∈ lastDecisions kept n) : d ∈ kept := by
  unfold lastDecisions at inside
  split at inside
  · exact inside
  · exact List.mem_of_mem_drop inside

def Flawless (c : Watch ℚ) : Prop :=
  ∀ id (stats : BackendStats ℚ), c.backends.lookup id = some stats → stats.errorRate1m = 0

theorem receiveFlawless {c : Watch ℚ} (flawless : Flawless c) {s : Sample} (success : s.error = false) :
    Flawless (c.receive s) := by
  intro id stats found
  by_cases own : id = (metric s).instanceID
  · subst own
    rw [Watch.receive, ingest, AList.lookup_insert] at found
    have before : ((c.backends.lookup (metric s).instanceID).getD Metrics.newBackendStats).errorRate1m = 0 := by
      cases kept : c.backends.lookup (metric s).instanceID with
      | none => exact ratLit 0
      | some old => exact flawless _ old kept
    rw [← Option.some.inj found]
    generalize (c.backends.lookup (metric s).instanceID).getD Metrics.newBackendStats = old at before
    norm_num [BackendStats.record, before, ratLit, metric, success]
  · rw [Watch.receive, ingest, AList.lookup_insert_ne own] at found
    exact flawless id stats found

theorem receivesFlawless (c : Watch ℚ) (flawless : Flawless c) (samples : List Sample)
    (successes : ∀ s ∈ samples, s.error = false) : Flawless (samples.foldl Watch.receive c) := by
  induction samples generalizing c with
  | nil => exact flawless
  | cons s rest ih =>
    obtain ⟨first, later⟩ := List.forall_mem_cons.mp successes
    exact ih _ (receiveFlawless flawless first) later

section
variable {w final : World} {es : List (Move × Mark)} (run : Run Steps w es final)
  (fresh : w.kernel.events = []) {reads : List Read} (carries : Carries reads final.kernel.events)
include run fresh

theorem emittedAll : ∃ new, final.kernel.events = new ∧
    (∀ id, new.countP (·.instanceId = id) = es.countP (measures id)) ∧
    ((∀ e ∈ es, readsError e = false) → ∀ v ∈ new, v.error = 0) := by
  obtain ⟨new, events, counted, errors⟩ := runEmits run
  rw [fresh, List.nil_append] at events
  exact ⟨new, events, counted, errors⟩

include carries

/-- The collector's count of a backend is the number of its measurements on all CPUs that found
room in the ring buffer, and the recorder answers with the last of them. -/
theorem measuredThrough {F : Type} [GoFloat F] (capacity : Int) :
    ∃ c : Watch F, (Watch.new capacity).run reads = .ok c ∧
      (∀ id, requestCount c id = es.countP (measures id)) ∧
      ∃ fr, c.onSample = some fr ∧ ∀ n, fr.recent n = .ok (lastDecisions
        (lastOf (retained capacity) (final.kernel.events.map fun v => decision (decoded v))) n) := by
  obtain ⟨new, events, counted, _⟩ := emittedAll run fresh
  refine ⟨_, runCarried carries _, fun id => ?_,
    (final.kernel.events.map decoded).foldl FlightRecorder.record (newFlightRecorder capacity), receivesRecord ..,
    recentEvents capacity _⟩
  rw [receivesCount, ← counted, ← events, List.countP_map]
  exact Nat.zero_add _

/-- While is_error is 0 on every CPU, as in the source, nothing behind it ever shows an error. -/
theorem errorsNever (capacity : Int) (correct : ∀ e ∈ es, readsError e = false) :
    ∃ c : Watch ℚ, (Watch.new capacity).run reads = .ok c ∧ (∀ id, errorRate c id = 0) ∧
      ∃ fr, c.onSample = some fr ∧ ∀ n, ∃ decisions, fr.recent n = .ok decisions ∧
        ∀ d ∈ decisions, d.error = false := by
  obtain ⟨new, events, _, errors⟩ := emittedAll run fresh
  have successes : ∀ v ∈ final.kernel.events, (decoded v).error = false := by
    intro v inside
    rw [events] at inside
    simp [decoded, errors correct v inside]
  refine ⟨_, runCarried carries _, fun id => ?_,
    (final.kernel.events.map decoded).foldl FlightRecorder.record (newFlightRecorder capacity), receivesRecord ..,
    fun n => ⟨_, recentEvents capacity _ n, fun d listed => ?_⟩⟩
  · have flawless := receivesFlawless (Watch.new capacity) (fun id stats found => by cases found)
      (final.kernel.events.map decoded) (List.forall_mem_map.mpr successes)
    unfold errorRate
    split
    · exact ratLit 0
    · rename_i stats found
      rw [flawless id stats found, zero_mul]
  · have member := lastMember (lastDecisionsMember listed)
    obtain ⟨v, inside, rfl⟩ := List.mem_map.mp member
    exact successes v inside

end

/-! ### One measurement -/

def blank : Nat → UInt8 := fun _ => 0

theorem carriesEvents (events : List EventSample) :
    Carries (events.map fun v => .record (StructLayout.encode blank (eventMembers v) ++ [])) events := by
  induction events with
  | nil => exact .nil
  | cons v rest ih => exact .event v blank [] ih

theorem measuredThroughOnce : ∃ final reads, Run Steps served overlapping final ∧
    ∃ c : Watch ℚ, (Watch.new 0).run reads = .ok c ∧ requestCount c 1 = 2 ∧ ∃ fr, c.onSample = some fr := by
  obtain ⟨final, run⟩ := overlappingRun
  obtain ⟨c, done, counted, fr, hook, _⟩ := measuredThrough (F := ℚ) run rfl (carriesEvents final.kernel.events) 0
  exact ⟨final, _, run, c, done, counted 1, fr, hook⟩

theorem errorsNeverOnce : ∃ final reads, Run Steps served overlapping final ∧
    ∃ c : Watch ℚ, (Watch.new 0).run reads = .ok c ∧ errorRate c 1 = 0 := by
  obtain ⟨final, run⟩ := overlappingRun
  obtain ⟨c, done, flawless, _⟩ := errorsNever run rfl (carriesEvents final.kernel.events) 0 (by decide)
  exact ⟨final, _, run, c, done, flawless 1⟩

end OmegaLb.EventPipeline
