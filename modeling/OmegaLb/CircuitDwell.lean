import OmegaLb.CircuitBreaker

/-! How long a circuit stays open. The manager samples the map and keeps its own date of the
trip, so the date has to be no older than the last trip the map has seen. -/
namespace OmegaLb.CircuitDwell
open CircuitBreaker
open StepRun (Run Guarded Does)
open KernelMaps (Fits)

/-- `lastTrip` dates the last write that changed a circuit to open. -/
structure Observed where
  world : World
  lastTrip : UInt32 → Option Int

def tripsAfter (p : Observed) (next : World) (id : UInt32) : Option Int :=
  if next.circuit id = .opened ∧ p.world.circuit id ≠ .opened then some p.world.clock
  else p.lastTrip id

def observe (p : Observed) (e : Event) : Option Observed :=
  (exec p.world e).map fun next => ⟨next, tripsAfter p next⟩

def observeFrom (circuits : GoMap UInt32 Circuit) (consecutiveErrors : GoMap UInt32 (Nat → UInt32))
    (clock : Int) : Observed :=
  ⟨newCircuitBreakerManager circuits consecutiveErrors clock, fun _ => none⟩

/-- A half-opening write comes at least openTimeout after the last trip. -/
def Dwells (p : Observed) (e : Event) : Prop :=
  match e, p.world.holder with
  | .writeHalfOpen true, .halfOpening _ _ id =>
    ∀ t, p.lastTrip id = some t → p.world.openTimeout ≤ p.world.clock - t
  | _, _ => True

def sampling : Holder → Option (Int × List UInt32)
  | .ticking now visited => some (now, visited)
  | .halfOpening now visited _ => some (now, visited)
  | _ => none

/-- A trip the manager will date: its record of the backend is not open (or dated at this very
instant, or about to be dated by NotifyProbeResult), and no tick that has read the clock
earlier is still to visit the entry. -/
def Dated (w : World) (id : UInt32) : Prop :=
  (w.holder ≠ .reopening id → ∀ bc ∈ w.states.lookup id, bc.state = .opened → w.clock ≤ bc.openedAt) ∧
    ∀ x ∈ sampling w.holder, id ∉ x.2 → w.clock ≤ x.1

instance (w : World) (id : UInt32) : Decidable (Dated w id) := by unfold Dated; infer_instance

def TripsDated (p : Observed) (e : Event) : Prop :=
  match e with
  | .collect k => ∀ c ∈ p.world.completions[k]?, c.pending = .trips →
      p.world.circuit c.instanceId ≠ .opened → Fits p.world.circuits c.instanceId →
        Dated p.world c.instanceId
  | _ => True

structure Fresh (p : Observed) : Prop where
  past : ∀ id t, p.lastTrip id = some t → t ≤ p.world.clock
  dated : ∀ id bc t, p.world.states.lookup id = some bc → bc.state = .opened →
    p.world.holder ≠ .reopening id → p.lastTrip id = some t → t ≤ bc.openedAt
  sampled : ∀ now visited, sampling p.world.holder = some (now, visited) → now ≤ p.world.clock ∧
    ∀ id t, id ∉ visited → p.lastTrip id = some t → t ≤ now
  due : ∀ now visited id, p.world.holder = .halfOpening now visited id →
    ∃ bc, p.world.states.lookup id = some bc ∧ bc.state = .opened ∧
      p.world.openTimeout ≤ now - bc.openedAt

instance (p : Observed) (e : Event) : Decidable (TripsDated p e) := by
  unfold TripsDated
  split <;> infer_instance

theorem freshDwells {p : Observed} (fresh : Fresh p) (e : Event) : Dwells p e := by
  unfold Dwells
  split <;> try trivial
  rename_i now visited id held
  intro t tripped
  obtain ⟨bc, found, opened, elapsed⟩ := fresh.due now visited id held
  have older := fresh.dated id bc t found opened (by rw [held]; nofun) tripped
  have begun := (fresh.sampled now visited (by rw [held]; rfl)).1
  omega

theorem tripsQuiet {p : Observed} {next : World} {id : UInt32}
    (same : next.circuit id = .opened → p.world.circuit id = .opened) :
    tripsAfter p next id = p.lastTrip id := if_neg fun tripped => tripped.2 (same tripped.1)

theorem tripsWritten {p : Observed} {next : World} {id k : UInt32} {state : Circuit}
    (written : next.circuits = (p.world.write id state).circuits) (other : k = id → state ≠ .opened) :
    tripsAfter p next k = p.lastTrip k := by
  apply tripsQuiet
  intro opened
  rw [writtenCircuit written] at opened
  split at opened
  · exact absurd opened (other ‹_›)
  · exact opened

theorem tripsUnwritten {p : Observed} {next : World} (same : next.circuits = p.world.circuits) :
    tripsAfter p next = p.lastTrip := by
  funext id
  apply tripsQuiet
  unfold World.circuit
  rw [same]
  exact fun opened => opened

theorem quietFresh {p : Observed} {next : World} (same : next.circuits = p.world.circuits)
    (fresh : Fresh ⟨next, p.lastTrip⟩) : Fresh ⟨next, tripsAfter p next⟩ := by
  rw [tripsUnwritten same]
  exact fresh

theorem kernelFresh {p : Observed} {next : World} (fresh : Fresh p) (same : SameManager p.world next)
    (trips : ∀ id, tripsAfter p next id = p.lastTrip id ∨
      tripsAfter p next id = some p.world.clock ∧ Dated p.world id) :
    Fresh ⟨next, tripsAfter p next⟩ := by
  obtain ⟨states, timeout, holder, clock⟩ := same
  refine ⟨fun id t tripped => ?_, fun id bc t found opened unheld tripped => ?_,
    fun now visited held => ?_, fun now visited id held => ?_⟩
  · dsimp only at tripped ⊢
    rw [clock]
    rcases trips id with old | ⟨new, _⟩
    · exact fresh.past id t (old.symm.trans tripped)
    · cases new.symm.trans tripped
      exact Int.le_refl _
  · dsimp only at tripped found unheld
    rw [states] at found
    rw [holder] at unheld
    rcases trips id with old | ⟨new, dated⟩
    · exact fresh.dated id bc t found opened unheld (old.symm.trans tripped)
    · cases new.symm.trans tripped
      exact dated.1 unheld bc found opened
  · dsimp only at held ⊢
    rw [holder] at held
    obtain ⟨begun, older⟩ := fresh.sampled now visited held
    refine ⟨by rw [clock]; exact begun, fun id t unvisited tripped => ?_⟩
    rcases trips id with old | ⟨new, dated⟩
    · exact older id t unvisited (old.symm.trans tripped)
    · cases new.symm.trans tripped
      exact dated.2 _ held unvisited
  · dsimp only at held ⊢
    rw [holder] at held
    rw [states, timeout]
    exact fresh.due now visited id held

theorem collectFresh {p : Observed} {k : Nat} {c : Completion} (fresh : Fresh p)
    (here : p.world.completions[k]? = some c) (dated : TripsDated p (.collect k)) :
    Fresh ⟨p.world.collect k c, tripsAfter p (p.world.collect k c)⟩ := by
  refine kernelFresh fresh (collectFrame p.world k c) fun id => ?_
  have condition := dated c here
  unfold World.collect
  cases pending : c.pending with
  | trips =>
    by_cases fits : Fits p.world.circuits c.instanceId
    · have written : (p.world.put c.instanceId .opened).circuits =
          (p.world.write c.instanceId .opened).circuits := putWritten fits
      by_cases own : id = c.instanceId
      · subst own
        by_cases already : p.world.circuit c.instanceId = .opened
        · exact .inl (tripsQuiet fun _ => already)
        · have tripped := (writtenCircuit (w := p.world) written c.instanceId).trans (if_pos rfl)
          exact .inr ⟨if_pos ⟨tripped, already⟩, condition pending already fits⟩
      · exact .inl (tripsWritten written fun same => absurd same own)
    · exact .inl (congrFun (tripsUnwritten (putLost fits)) id)
  | succeeds =>
    refine .inl (congrFun (tripsUnwritten ?_) id)
    dsimp only
    split <;> rfl
  | closes =>
    by_cases fits : Fits p.world.circuits c.instanceId
    · exact .inl (tripsWritten (putWritten fits) fun _ => nofun)
    · exact .inl (congrFun (tripsUnwritten (putLost fits)) id)

/-! ### The manager's own steps -/

/-- What a visit leaves of the entry's record, and whether it goes on to half-open the circuit. -/
structure VisitLeaves (w next : World) (now : Int) (visited : List UInt32) (id : UInt32)
    (bc : BackendCircuit) : Prop where
  states : next.states = w.states.insert id bc
  openTimeout : next.openTimeout = w.openTimeout
  clock : next.clock = w.clock
  date : bc.state = .opened → bc.openedAt = now ∨ w.states.lookup id = some bc
  holder : next.holder = .ticking now (id :: visited) ∨
    next.holder = .halfOpening now (id :: visited) id ∧ w.states.lookup id = some bc ∧
      bc.state = .opened ∧ w.openTimeout ≤ now - bc.openedAt

theorem defaultClosed {w : World} {id : UInt32}
    (opened : ((w.states.lookup id).getD {}).state = .opened) :
    w.states.lookup id = some ((w.states.lookup id).getD {}) := by
  cases found : w.states.lookup id with
  | none =>
    rw [found] at opened
    contradiction
  | some bc => rfl

theorem visitLeaves (w : World) (now : Int) (visited : List UInt32) (id : UInt32) (cs : Circuit) :
    ∃ bc, VisitLeaves w (w.visit now visited id cs) now visited id bc := by
  have kept : ((w.states.lookup id).getD {}).state = .opened →
      ((w.states.lookup id).getD {}).openedAt = now ∨
        w.states.lookup id = some ((w.states.lookup id).getD {}) := fun opened => .inr (defaultClosed opened)
  unfold World.visit
  cases cs with
  | opened =>
    dsimp only
    split
    · exact ⟨_, rfl, rfl, rfl, fun _ => .inl rfl, .inl rfl⟩
    · rename_i opened
      have found := defaultClosed (not_not.mp opened)
      split
      · exact ⟨_, rfl, rfl, rfl, kept, .inr ⟨rfl, found, not_not.mp opened, ‹_›⟩⟩
      · exact ⟨_, rfl, rfl, rfl, kept, .inl rfl⟩
  | halfOpen =>
    dsimp only
    split
    · exact ⟨_, rfl, rfl, rfl, nofun, .inl rfl⟩
    · exact ⟨_, rfl, rfl, rfl, kept, .inl rfl⟩
  | closed =>
    dsimp only
    split
    · exact ⟨_, rfl, rfl, rfl, nofun, .inl rfl⟩
    · exact ⟨_, rfl, rfl, rfl, kept, .inl rfl⟩

theorem visitFresh {p : Observed} {next : World} {now : Int} {visited : List UInt32} {id : UInt32}
    {bc : BackendCircuit} (fresh : Fresh p) (held : p.world.holder = .ticking now visited)
    (unvisited : id ∉ visited) (leaves : VisitLeaves p.world next now visited id bc) :
    Fresh ⟨next, p.lastTrip⟩ := by
  obtain ⟨states, timeout, clock, date, holder⟩ := leaves
  have free : ∀ k, p.world.holder ≠ .reopening k := fun k same => by
    rw [held] at same
    contradiction
  obtain ⟨begun, older⟩ := fresh.sampled now visited (by rw [held]; rfl)
  have sampled : sampling next.holder = some (now, id :: visited) := by
    rcases holder with ticking | ⟨opening, _⟩
    · rw [ticking]
      rfl
    · rw [opening]
      rfl
  refine ⟨fun k t tripped => ?_, fun k other t found opened _ tripped => ?_,
    fun now' visited' again => ?_, fun now' visited' k opening => ?_⟩
  · exact clock.symm ▸ fresh.past k t tripped
  · dsimp only at found
    rw [states] at found
    by_cases own : k = id
    · subst own
      rw [AList.lookup_insert] at found
      cases found
      rcases date opened with sampledNow | before
      · rw [sampledNow]
        exact older k t unvisited tripped
      · exact fresh.dated k _ t before opened (free k) tripped
    · rw [AList.lookup_insert_ne own] at found
      exact fresh.dated k other t found opened (free k) tripped
  · cases sampled.symm.trans again
    refine ⟨clock.symm ▸ begun, fun k t apart tripped => ?_⟩
    exact older k t (fun inside => apart (List.mem_cons_of_mem _ inside)) tripped
  · rcases holder with ticking | ⟨halfOpening, found, opened, elapsed⟩
    · cases ticking.symm.trans opening
    · cases halfOpening.symm.trans opening
      refine ⟨bc, ?_, opened, timeout.symm ▸ elapsed⟩
      dsimp only
      rw [states, AList.lookup_insert]

theorem releaseFresh {p : Observed} {next : World} (fresh : Fresh p)
    (states : next.states = p.world.states) (clock : p.world.clock ≤ next.clock)
    (unheld : ∀ id, p.world.holder ≠ .reopening id) (sampled : sampling next.holder = none) :
    Fresh ⟨next, p.lastTrip⟩ := by
  refine ⟨fun id t tripped => (fresh.past id t tripped).trans clock,
    fun id bc t found opened _ tripped => ?_, fun now visited again => ?_,
    fun now visited id opening => ?_⟩
  · exact fresh.dated id bc t (states ▸ found) opened (unheld id) tripped
  · cases sampled.symm.trans again
  · dsimp only at opening
    rw [opening] at sampled
    contradiction

theorem halfOpenFresh {p : Observed} {now : Int} {visited : List UInt32} {id : UInt32} (fresh : Fresh p)
    (held : p.world.holder = .halfOpening now visited id) :
    Fresh ⟨{ p.world with holder := .ticking now visited }.halfOpened now id, p.lastTrip⟩ := by
  have free : ∀ k, p.world.holder ≠ .reopening k := fun k same => by
    rw [held] at same
    contradiction
  refine ⟨fresh.past, fun k bc t found opened _ tripped => ?_, fun now' visited' again => ?_, nofun⟩
  · dsimp only [World.halfOpened] at found
    rw [GoMap.lookupModify] at found
    split at found
    · obtain ⟨before, _, same⟩ := Option.map_eq_some_iff.mp found
      rw [← same] at opened
      contradiction
    · exact fresh.dated k bc t found opened (free k) tripped
  · cases again
    exact fresh.sampled now visited (by rw [held]; rfl)

theorem reopeningFresh {p : Observed} (fresh : Fresh p) (free : p.world.holder = .free) (id : UInt32) :
    Fresh ⟨{ p.world.write id .opened with holder := .reopening id },
      tripsAfter p { p.world.write id .opened with holder := .reopening id }⟩ := by
  have elsewhere : ∀ k, k ≠ id →
      tripsAfter p { p.world.write id .opened with holder := .reopening id } k = p.lastTrip k :=
    fun k other => tripsWritten rfl fun same => absurd same other
  refine ⟨fun k t tripped => ?_, fun k bc t found opened unheld tripped => ?_, nofun, nofun⟩
  · dsimp only at tripped
    unfold tripsAfter at tripped
    split at tripped
    · cases tripped
      exact Int.le_refl _
    · exact fresh.past k t tripped
  · have other : k ≠ id := fun same => unheld (same ▸ rfl)
    refine fresh.dated k bc t found opened ?_ ((elsewhere k other).symm.trans tripped)
    rw [free]
    nofun

theorem reopenedFresh {p : Observed} {id : UInt32} (fresh : Fresh p)
    (held : p.world.holder = .reopening id) :
    Fresh ⟨{ p.world.reopened id with holder := .free }, p.lastTrip⟩ := by
  refine ⟨fresh.past, fun k bc t found opened _ tripped => ?_, nofun, nofun⟩
  dsimp only [World.reopened] at found
  rw [GoMap.lookupModify] at found
  split at found
  · obtain ⟨before, _, same⟩ := Option.map_eq_some_iff.mp found
    rw [← same]
    exact fresh.past k t tripped
  · refine fresh.dated k bc t found opened ?_ tripped
    rw [held]
    intro same
    cases same
    contradiction

theorem tickingFresh {p : Observed} {next : World} {now : Int} {visited : List UInt32} (fresh : Fresh p)
    (states : next.states = p.world.states) (clock : next.clock = p.world.clock)
    (unheld : ∀ id, p.world.holder ≠ .reopening id) (held : next.holder = .ticking now visited)
    (sampled : now ≤ p.world.clock ∧ ∀ id t, id ∉ visited → p.lastTrip id = some t → t ≤ now) :
    Fresh ⟨next, p.lastTrip⟩ := by
  refine ⟨fun id t tripped => clock.symm ▸ fresh.past id t tripped,
    fun id bc t found opened _ tripped => ?_, fun now' visited' again => ?_,
    fun now' visited' id opening => ?_⟩
  · exact fresh.dated id bc t (states ▸ found) opened (unheld id) tripped
  · dsimp only at again ⊢
    rw [held] at again
    cases again
    exact ⟨clock.symm ▸ sampled.1, sampled.2⟩
  · cases held.symm.trans opening

theorem observeFresh {p q : Observed} {e : Event} (fresh : Fresh p) (dated : TripsDated p e)
    (taken : observe p e = some q) : Fresh q := by
  obtain ⟨next, step, same⟩ := Option.map_eq_some_iff.mp taken
  cases same
  cases execTaken step with
  | pass later =>
    refine quietFresh rfl ⟨fun id t tripped => (fresh.past id t tripped).trans later, fresh.dated,
      fun now visited held => ?_, fresh.due⟩
    obtain ⟨begun, older⟩ := fresh.sampled now visited held
    exact ⟨begun.trans later, older⟩
  | complete cpu id isError =>
    obtain ⟨circuits, frame⟩ := completeFrame p.world cpu id isError
    exact kernelFresh fresh frame fun id => .inl (congrFun (tripsUnwritten circuits) id)
  | collect here => exact collectFresh fresh here dated
  | tick free =>
    refine quietFresh rfl (tickingFresh fresh rfl rfl (fun id => by rw [free]; nofun) rfl ?_)
    exact ⟨Int.le_refl _, fun id t _ tripped => fresh.past id t tripped⟩
  | @visit now visited id cs held unvisited found =>
    obtain ⟨bc, leaves⟩ := visitLeaves p.world now visited id cs
    exact quietFresh (visitCircuits ..) (visitFresh fresh held unvisited leaves)
  | @halfOpens now visited id held =>
    have quiet : tripsAfter p ({ p.world with holder := .ticking now visited }.halfOpened now id) =
        p.lastTrip := by
      funext k
      have written : ({ p.world with holder := .ticking now visited }.halfOpened now id).circuits =
          (p.world.write id .halfOpen).circuits := rfl
      exact tripsWritten written fun _ => nofun
    rw [quiet]
    exact halfOpenFresh fresh held
  | @missesHalfOpen now visited id held =>
    refine quietFresh rfl (tickingFresh fresh rfl rfl (fun id => by rw [held]; nofun) rfl ?_)
    exact fresh.sampled now visited (by rw [held]; rfl)
  | tickDone held =>
    exact quietFresh rfl (releaseFresh fresh rfl (Int.le_refl _) (fun id => by rw [held]; nofun) rfl)
  | probeSucceeded id written => exact quietFresh rfl fresh
  | reopens free => exact reopeningFresh fresh free _
  | missesReopen free => exact quietFresh rfl fresh
  | recordReopen held => exact quietFresh rfl (reopenedFresh fresh held)

theorem circuitDwells (circuits : GoMap UInt32 Circuit)
    (consecutiveErrors : GoMap UInt32 (Nat → UInt32)) (clock : Int) {es p}
    (run : Run (Guarded TripsDated (Does observe)) (observeFrom circuits consecutiveErrors clock) es p) :
    Run (fun s e t => Does observe s e t ∧ Dwells s e) (observeFrom circuits consecutiveErrors clock) es p := by
  have kept : ∀ s e t, Fresh s → TripsDated s e → Does observe s e t → Fresh t :=
    fun _ _ _ fresh dated taken => observeFresh fresh dated taken
  exact StepRun.guardedAlso kept (fun _ e _ fresh _ _ => freshDwells fresh e) run
    ⟨nofun, nofun, nofun, nofun⟩

/-- Six failures on one CPU, the first of which only creates the statistics of instance 1. -/
def firstTrip : List Event := List.replicate 6 (.complete 0 1 true) ++ [.collect 0]

def sample (now : Int) : List Event := [.pass now, .tick, .visit 1, .tickDone]

theorem tripHalfOpened : ∃ p, Run (fun s e t => Does observe s e t ∧ Dwells s e) (observeFrom ∅ ∅ 0)
    (firstTrip ++ sample 0 ++ [.pass 10000000000, .tick, .visit 1, .writeHalfOpen true]) p ∧
    p.lastTrip 1 = some 0 ∧ p.world.circuit 1 = .halfOpen := by
  have computed : (StepRun.runGuarded TripsDated observe (observeFrom ∅ ∅ 0)
      (firstTrip ++ sample 0 ++ [.pass 10000000000, .tick, .visit 1, .writeHalfOpen true])).any
      (fun p => decide (p.lastTrip 1 = some 0 ∧ p.world.circuit 1 = .halfOpen)) = true := by
    decide +kernel
  obtain ⟨p, reached, last⟩ := (Option.any_eq_true _ _).mp computed
  exact ⟨p, circuitDwells ∅ ∅ 0 (StepRun.runGuardedRun reached), of_decide_eq_true last⟩

/-! ### A second trip between two samples -/

/-- The manager samples every second. Between the samples of 9 s and 10 s a success closes the
circuit and five failures open it again. -/
def secondTrip : List Event :=
  firstTrip ++ (List.range 10).flatMap (fun n => sample (n * 1000000000)) ++
    [.pass 9300000000, .complete 0 1 false, .collect 0, .collect 0, .pass 9600000000] ++
    List.replicate 5 (.complete 0 1 true) ++ [.collect 0, .pass 10000000000, .tick, .visit 1]

theorem secondTripHalfOpened : ∃ p q, Run (Does observe) (observeFrom ∅ ∅ 0) secondTrip p ∧
    observe p (.writeHalfOpen true) = some q ∧ p.world.circuit 1 = .opened ∧
    q.world.circuit 1 = .halfOpen ∧ p.lastTrip 1 = some 9600000000 ∧
    p.world.clock = 10000000000 ∧ ¬ Dwells p (.writeHalfOpen true) := by
  have computed : (secondTrip.foldlM observe (observeFrom ∅ ∅ 0)).any (fun p =>
      (observe p (.writeHalfOpen true)).any fun q =>
        decide (p.world.circuit 1 = .opened ∧ q.world.circuit 1 = .halfOpen ∧
          p.lastTrip 1 = some 9600000000 ∧ p.world.clock = 10000000000 ∧
          p.world.openTimeout = 10000000000 ∧
          p.world.holder = .halfOpening 10000000000 [1] 1)) = true := by decide +kernel
  obtain ⟨p, reached, step⟩ := (Option.any_eq_true _ _).mp computed
  obtain ⟨q, taken, states⟩ := (Option.any_eq_true _ _).mp step
  obtain ⟨opened, halfOpen, tripped, now, timeout, held⟩ := of_decide_eq_true states
  refine ⟨p, q, StepRun.runFoldlM reached, taken, opened, halfOpen, tripped, now,
    fun dwells => ?_⟩
  simp only [Dwells, held] at dwells
  have elapsed := dwells _ tripped
  rw [timeout, now] at elapsed
  omega

end OmegaLb.CircuitDwell
