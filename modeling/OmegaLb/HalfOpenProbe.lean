import OmegaLb.RelayChain

/-! How many requests reach a backend while its circuit is half open. lb_policy keeps nothing
between two invocations, so the count is kept beside the maps. -/
namespace OmegaLb.HalfOpenProbe
open KernelMaps LbPolicy RelayChain
open Reconcile (BackendEntry)
open StepRun (Run Guarded Along Does)

/-- `writeCircuit` is a write of the circuit breaker manager, `sync` of the ring manager;
filterManager starts a chain and resets the depth of its CPU. -/
inductive Event where
  | lbPolicy (cpu : Nat) (flow : Flow)
  | metricsCollector (cpu : Nat) (o : Reading)
  | writeCircuit (id state : UInt32)
  | sync (ringMeta : RingMeta) (haRing : GoMap UInt32 UInt32)
      (instanceRegistry : GoMap UInt32 BackendEntry)
  | filterManager (cpu : Nat)

def exec (k : Kernel) : Event → Kernel
  | .lbPolicy cpu flow => (lbPolicy k cpu flow).1
  | .metricsCollector cpu o => metricsCollector k cpu o
  | .writeCircuit id state => { k with circuitState := updateElem k.circuitState id state }
  | .sync ringMeta haRing instanceRegistry =>
    { k with ringMeta := ringMeta, haRing := haRing, instanceRegistry := instanceRegistry }
  | .filterManager cpu => { k with tailDepth := Function.update k.tailDepth cpu 0 }

def routedTo (k : Kernel) : Event → Option UInt32
  | .lbPolicy cpu flow =>
    match lbPolicy k cpu flow with
    | (next, .tailCall _) => some (next.selection cpu).instanceId
    | (_, .pass) => none
  | _ => none

def HalfOpen (k : Kernel) (id : UInt32) : Prop := k.circuitState.lookup id = some circuitHalfOpen

instance (k : Kernel) (id : UInt32) : Decidable (HalfOpen k id) := by unfold HalfOpen; infer_instance

/-- `probes` counts the requests routed to a backend since its circuit became half open. -/
structure Watched where
  kernel : Kernel
  probes : UInt32 → Nat

def counted (w : Watched) (e : Event) (next : Kernel) (id : UInt32) : Nat :=
  if HalfOpen w.kernel id ∧ HalfOpen next id then
    w.probes id + if routedTo w.kernel e = some id then 1 else 0
  else 0

def next (w : Watched) (e : Event) : Watched := ⟨exec w.kernel e, counted w e (exec w.kernel e)⟩

def watch (w : Watched) (e : Event) : Option Watched := some (next w e)

def watchFrom (k : Kernel) : Watched := ⟨k, fun _ => 0⟩

def OneProbe (w : Watched) : Prop := ∀ id, w.probes id ≤ 1

/-- No flow whose walk first meets a half-open backend finds it probed before. -/
def SparesProbed (w : Watched) (e : Event) : Prop :=
  match e with
  | .lbPolicy cpu flow => ∀ id be, id ≠ 0 → Picks w.kernel cpu flow id be → HalfOpen w.kernel id →
      w.probes id = 0
  | _ => True

theorem routedPicks {k : Kernel} {cpu : Nat} {flow : Flow} {id : UInt32} {be : BackendEntry}
    (picks : Picks k cpu flow id be) :
    routedTo k (.lbPolicy cpu flow) = if id = 0 then none else some id := by
  unfold routedTo
  dsimp only
  rw [lbPolicyPicks picks]
  split
  · rename_i next slot same
    split at same
    · cases same
    · rename_i nonzero
      cases same
      dsimp only [choose]
      rw [if_neg nonzero, Function.update_self]
  · rename_i next same
    split at same
    · rename_i zero
      rw [if_pos zero]
    · cases same

theorem routedExact {k : Kernel} {cpu : Nat} {flow : Flow} {id : UInt32} :
    routedTo k (.lbPolicy cpu flow) = some id ↔ id ≠ 0 ∧ ∃ be, Picks k cpu flow id be := by
  constructor
  · intro routed
    by_cases some_ : ∃ id' be, Picks k cpu flow id' be
    · obtain ⟨id', be, picks⟩ := some_
      rw [routedPicks picks] at routed
      split at routed
      · contradiction
      · rename_i nonzero
        cases routed
        exact ⟨nonzero, be, picks⟩
    · have idle := (lbPolicyIdle fun id be picks => some_ ⟨id, be, picks⟩).2
      unfold routedTo at routed
      dsimp only at routed
      split at routed
      · rename_i called
        rw [called] at idle
        contradiction
      · contradiction
  · intro ⟨nonzero, be, picks⟩
    rw [routedPicks picks, if_neg nonzero]

theorem lbPolicyCircuits (k : Kernel) (cpu : Nat) (flow : Flow) :
    (lbPolicy k cpu flow).1.circuitState = k.circuitState := by
  by_cases some_ : ∃ id be, Picks k cpu flow id be
  · obtain ⟨id, be, picks⟩ := some_
    rw [lbPolicyPicks picks]
    rfl
  · exact (lbPolicyIdle fun id be picks => some_ ⟨id, be, picks⟩).1.circuitState

theorem countedRoute {w : Watched} {cpu : Nat} {flow : Flow} (id : UInt32) :
    counted w (.lbPolicy cpu flow) (exec w.kernel (.lbPolicy cpu flow)) id =
      if HalfOpen w.kernel id then
        w.probes id + if routedTo w.kernel (.lbPolicy cpu flow) = some id then 1 else 0
      else 0 := by
  have same : HalfOpen (exec w.kernel (.lbPolicy cpu flow)) id ↔ HalfOpen w.kernel id := by
    unfold HalfOpen
    rw [show exec w.kernel (.lbPolicy cpu flow) = (lbPolicy w.kernel cpu flow).1 from rfl,
      lbPolicyCircuits]
  simp only [counted, same, and_self]

theorem countedQuiet {w : Watched} {e : Event} (next : Kernel) (quiet : routedTo w.kernel e = none)
    (id : UInt32) : counted w e next id ≤ w.probes id := by
  unfold counted
  rw [quiet]
  split
  · exact Nat.le_refl _
  · exact Nat.zero_le _

theorem watchExact {w v : Watched} {e : Event} (one : OneProbe w) (taken : Does watch w e v) :
    OneProbe v ↔ SparesProbed w e := by
  cases Option.some.inj taken
  have quiet : routedTo w.kernel e = none → OneProbe (next w e) :=
    fun none_ id => (countedQuiet _ none_ id).trans (one id)
  cases e with
  | lbPolicy cpu flow =>
    unfold OneProbe SparesProbed next
    dsimp only
    constructor
    · intro bounded id be nonzero picks halfOpen
      have here := bounded id
      rw [countedRoute, if_pos halfOpen, if_pos (routedExact.mpr ⟨nonzero, be, picks⟩)] at here
      omega
    · intro spared id
      rw [countedRoute]
      split
      · rename_i halfOpen
        split
        · rename_i routed
          obtain ⟨nonzero, be, picks⟩ := routedExact.mp routed
          rw [spared id be nonzero picks halfOpen]
        · exact one id
      · exact Nat.zero_le _
  | metricsCollector cpu o => exact iff_of_true (quiet rfl) trivial
  | writeCircuit id state => exact iff_of_true (quiet rfl) trivial
  | sync ringMeta haRing instanceRegistry => exact iff_of_true (quiet rfl) trivial
  | filterManager cpu => exact iff_of_true (quiet rfl) trivial

theorem oneProbeExact (k : Kernel) {es w} : Run (Along OneProbe (Does watch)) (watchFrom k) es w ↔
    Run (Guarded SparesProbed (Does watch)) (watchFrom k) es w := by
  have kept : ∀ (s : Watched) e t, True → Does watch s e t → True := fun _ _ _ _ _ => trivial
  have each : ∀ (s : Watched) e t, True → OneProbe s → Does watch s e t →
      (OneProbe t ↔ SparesProbed s e) := fun _ _ _ _ one taken => watchExact one taken
  exact StepRun.alongGuarded kept each trivial fun _ => Nat.zero_le _

/-! ### Two flows -/

/-- The circuit of instance 1 becomes half open, and two CPUs take a flow each. -/
def twoFlows : List Event := [.writeCircuit 1 circuitHalfOpen, .lbPolicy 0 client, .lbPolicy 1 client]

theorem nextPicks {w : Watched} {cpu : Nat} {flow : Flow} {id : UInt32} {be : BackendEntry}
    (picks : Picks w.kernel cpu flow id be) :
    (next w (.lbPolicy cpu flow)).kernel = choose (w.kernel.deeper cpu) cpu id be :=
  congrArg Prod.fst (lbPolicyPicks picks)

theorem staysHalfOpen {w : Watched} {id : UInt32} (cpu : Nat) (flow : Flow)
    (halfOpen : HalfOpen w.kernel id) : HalfOpen (next w (.lbPolicy cpu flow)).kernel id := by
  have same : (next w (.lbPolicy cpu flow)).kernel.circuitState = w.kernel.circuitState :=
    lbPolicyCircuits w.kernel cpu flow
  unfold HalfOpen
  rw [same]
  exact halfOpen

theorem routes {w : Watched} {cpu : Nat} {flow : Flow} {id : UInt32} {be : BackendEntry}
    (halfOpen : HalfOpen w.kernel id) (nonzero : id ≠ 0) (picks : Picks w.kernel cpu flow id be) :
    (next w (.lbPolicy cpu flow)).probes id = w.probes id + 1 := by
  unfold next
  dsimp only
  rw [countedRoute, if_pos halfOpen, if_pos (routedExact.mpr ⟨nonzero, be, picks⟩)]

def tested : Watched := next (watchFrom (sole 1)) (.writeCircuit 1 circuitHalfOpen)

theorem firstPicks : Picks tested.kernel 0 client 1 (backendOf 1) := by
  have here : walk tested.kernel client 0 = some (1, backendOf 1) := by decide +kernel
  exact ⟨by decide, by decide, 0, by decide, here, nofun⟩

theorem secondPicks : ∃ be, Picks (next tested (.lbPolicy 0 client)).kernel 1 client 1 be := by
  have here : (walk (choose (tested.kernel.deeper 0) 0 1 (backendOf 1)) client 0).map Prod.fst =
      some 1 := by decide +kernel
  obtain ⟨⟨_, be⟩, hit, same⟩ := Option.map_eq_some_iff.mp here
  cases same
  rw [nextPicks firstPicks]
  exact ⟨be, by decide, by decide, 0, by decide, hit, nofun⟩

theorem secondProbe : ∃ w, Run (Does watch) (watchFrom (sole 1)) twoFlows w ∧ HalfOpen w.kernel 1 ∧
    w.probes 1 = 2 ∧ ¬ OneProbe w := by
  have before : HalfOpen tested.kernel 1 := by decide +kernel
  have unprobed : tested.probes 1 = 0 := by decide +kernel
  have halfOpen := staysHalfOpen 0 client before
  obtain ⟨be, second⟩ := secondPicks
  have probes : (next (next tested (.lbPolicy 0 client)) (.lbPolicy 1 client)).probes 1 = 2 := by
    rw [routes halfOpen (by decide) second, routes before (by decide) firstPicks, unprobed]
  refine ⟨next (next tested (.lbPolicy 0 client)) (.lbPolicy 1 client),
    .cons rfl (.cons rfl (.cons rfl (.nil _))), staysHalfOpen 1 client halfOpen, probes, fun one => ?_⟩
  have bounded := one 1
  rw [probes] at bounded
  exact absurd bounded (by decide)

end OmegaLb.HalfOpenProbe
