import OmegaLb.AdminServer
import OmegaLb.ManualMode

/-! The admin API beside everything else that works on the ring and the agent. What an operator
can set there, the mode of the agent and the draining flags of the backends, is at any time what
the authorised requests and the registrations have made it. -/
namespace OmegaLb.Admin
open GoText (Bytes ascii)
open Rl (Agent AgentMode Shared SharedEvent)
open RingManager (Backend Manager Op Runtime)
open StepRun (Does Run)

variable {F : Type} [GoMath F] [GoRoots F]

/-! ### The daemon -/

/-- What the agent has decided and not yet written, beside what the server refers to. -/
structure Daemon (F : Type) where
  server : Server F
  writing : List (UInt32 × Int)
  status : Rl.Status

/-- SetMode is called by the server alone once the daemon runs. -/
inductive Event (F : Type) where
  | request (r : Request F) (rt : Runtime) (views : UInt32 → Manager F)
  | ring (rt : Runtime) (op : Op F)
  | agent (e : SharedEvent F)

def ofAgent : SharedEvent F → Bool
  | .ring _ _ => false
  | .setMode _ _ => false
  | _ => true

def Daemon.exec (d : Daemon F) : Event F → Option (Daemon F)
  | .request r rt views => (d.server.serve r rt views).toOption.map fun out => { d with server := out.1 }
  | .ring rt op => do
    let ring ← d.server.ring
    let ring ← (ring.apply rt op).toOption
    return { d with server := { d.server with ring := some ring } }
  | .agent e => do
    let agent ← d.server.agent
    let ring ← d.server.ring
    if ofAgent e then
      let s ← Shared.exec ⟨agent, ring, d.writing, d.status⟩ e
      return ⟨{ d.server with agent := some s.agent, ring := some s.ring }, s.writing, s.status⟩
    else none

/-! ### What an operator sets -/

structure Desk where
  mode : Option AgentMode
  draining : UInt32 → Option Bool

def Server.desk (s : Server F) : Desk where
  mode := s.agent.map Agent.mode
  draining := fun id => s.ring.bind fun ring => (ring.backends.lookup id).map Backend.draining

inductive Order where
  | mode (m : AgentMode)
  | drain (id : UInt32) (draining : Bool)
  | drainAll (draining : Bool)

def Request.order (r : Request F) : Option Order :=
  if r.method ≠ post then none
  else if r.path = ascii "/admin/mode" then
    match r.body.mode with
    | .error _ => none
    | .ok req => (modeOf req.mode).bind fun m =>
      if m = .manual ∧ req.weights.length = 0 then none else some (.mode m)
  else if r.path = ascii "/admin/drain" then
    match r.body.drain with
    | .error _ => none
    | .ok req => some (.drain req.backendID req.draining)
  else if r.path = ascii "/admin/drain/all" then
    match r.body.drainAll with
    | .error _ => none
    | .ok draining => some (.drainAll draining)
  else none

def Order.Drains : Order → Prop
  | .mode _ => False
  | .drain _ _ => True
  | .drainAll _ => True

def Desk.obey (d : Desk) : Order → Desk
  | .mode m => { d with mode := d.mode.map fun _ => m }
  | .drain id draining => { d with
      draining := fun k => if k = id then (d.draining id).map fun _ => draining else d.draining k }
  | .drainAll draining => { d with draining := fun k => (d.draining k).map fun _ => draining }

/-- A new registration carries its own flag, and a call of SetDraining is an order as well. -/
def Desk.registers (d : Desk) : Op F → Desk
  | .addBackend b => { d with draining := Function.update d.draining b.id (some b.draining) }
  | .removeBackend id => { d with draining := Function.update d.draining id none }
  | .setDraining id draining => d.obey (.drain id draining)
  | .setDrainingAll draining => d.obey (.drainAll draining)
  | _ => d

def Desk.after (token : Bytes) (d : Desk) : Event F → Desk
  | .request r _ _ =>
    if token = [] ∨ (requestToken r ≠ [] ∧ requestToken r = token) then (r.order.map d.obey).getD d else d
  | .ring _ op => d.registers op
  | .agent _ => d

/-! ### Operations of the ring -/

section
omit [GoMath F] [GoRoots F]

def flag (m : Manager F) (id : UInt32) : Option Bool := (m.backends.lookup id).map Backend.draining

def SameFlags (m next : Manager F) : Prop := ∀ id, flag next id = flag m id

theorem modifyFlags {bs : GoMap UInt32 Backend} {f : Backend → Backend} (same : ∀ b, (f b).draining = b.draining)
    (id k : UInt32) : ((GoMap.modify bs id f).lookup k).map Backend.draining = (bs.lookup k).map Backend.draining := by
  rw [GoMap.lookupModify]
  split
  · rename_i own
    subst own
    rw [Option.map_map]
    exact congrArg (Option.map · _) (funext same)
  · rfl

theorem setFieldFlags (rt : Runtime) (m : Manager F) {write : Backend → Backend}
    (same : ∀ b, (write b).draining = b.draining) (id : UInt32) : SameFlags m (m.setField rt id write) := by
  intro k
  unfold flag
  rw [RingInvariant.setFieldLookup]
  split
  · rename_i own
    subst own
    rw [Option.map_map]
    exact congrArg (Option.map · _) (funext same)
  · rfl

theorem drainFlags (rt : Runtime) (m : Manager F) (id : UInt32) (draining : Bool) (k : UInt32) :
    flag (m.setDraining rt id draining).1 k = (Desk.obey ⟨none, flag m⟩ (.drain id draining)).draining k := by
  unfold flag Manager.setDraining Desk.obey
  dsimp only
  rw [RingInvariant.setFieldLookup]
  split
  · rw [Option.map_map, Option.map_map]
    rfl
  · rfl

theorem drainAllFlags (rt : Runtime) (m : Manager F) (draining : Bool) (k : UInt32) :
    flag (m.setDrainingAll rt draining).1 k = (Desk.obey ⟨none, flag m⟩ (.drainAll draining)).draining k := by
  unfold flag Manager.setDrainingAll Desk.obey
  dsimp only
  rw [RingInvariant.rebuildBackends, GoMap.lookupMapValues, Option.map_map, Option.map_map]
  rfl

theorem addFlags (rt : Runtime) (m : Manager F) (b : Backend) (k : UInt32) :
    flag (m.addBackend rt b) k = (Desk.registers ⟨none, flag m⟩ (.addBackend b : Op F)).draining k := by
  unfold flag Desk.registers
  rw [RingInvariant.addBackendLookups]
  dsimp only
  by_cases own : k = b.id
  · subst own
    rw [if_pos rfl, Function.update_self]
    rfl
  · rw [if_neg own, Function.update_of_ne own]

theorem removeFlags (rt : Runtime) (m : Manager F) (id k : UInt32) :
    flag (m.removeBackend rt id) k = (Desk.registers ⟨none, flag m⟩ (.removeBackend id : Op F)).draining k := by
  unfold flag Desk.registers
  dsimp only
  by_cases own : k = id
  · subst own
    rw [Function.update_self]
    simp [Manager.removeBackend]
  · rw [Function.update_of_ne own]
    simp [Manager.removeBackend, AList.lookup_erase_ne own]

end

section
variable {F : Type} [GoFloat F]

theorem adjustFlags (rt : Runtime) (m : Manager F) : SameFlags m (m.adjust rt) := by
  intro k
  have moved := fun n (b : Backend) => (rfl : (b.addVnodes n).draining = b.draining)
  unfold Manager.adjust
  dsimp only
  split
  · split
    · rfl
    · split
      · split
        · exact (modifyFlags (moved 1) ..).trans (modifyFlags (moved (-1)) ..)
        · rfl
      · rfl
  · rfl

theorem preMigrateDraining (samples : List F) (b : Backend) :
    (RingManager.preMigrate samples b).draining = b.draining := by
  unfold RingManager.preMigrate
  split
  · rfl
  · split <;> rfl

theorem proactiveFlags (rt : Runtime) (m : Manager F) (loadWindow : GoMap UInt32 (List F)) :
    SameFlags m (m.proactiveAdjust rt loadWindow) := by
  intro k
  have moved : ∀ bs : GoMap UInt32 Backend, ((loadWindow.entries.foldl (fun backends e =>
      GoMap.modify backends e.1 (RingManager.preMigrate e.2)) bs).lookup k).map Backend.draining =
      (bs.lookup k).map Backend.draining := by
    intro bs
    induction loadWindow.entries generalizing bs with
    | nil => rfl
    | cons e rest ih => exact (ih _).trans (modifyFlags (preMigrateDraining e.2) ..)
  exact moved m.backends

theorem applyFlags {rt : Runtime} {m next : Manager F} {op : Op F} (taken : m.apply rt op = .ok next) (k : UInt32) :
    flag next k = (Desk.registers ⟨none, flag m⟩ op).draining k := by
  cases op with
  | addBackend b =>
    cases taken
    exact addFlags rt m b k
  | removeBackend id =>
    cases taken
    exact removeFlags rt m id k
  | setDraining id draining =>
    cases taken
    exact drainFlags rt m id draining k
  | setDrainingAll draining =>
    cases taken
    exact drainAllFlags rt m draining k
  | setHealth id healthy =>
    cases taken
    exact setFieldFlags rt m (fun _ => by rfl) id k
  | setVnodeCount id count =>
    cases taken
    exact setFieldFlags rt m (fun _ => by rfl) id k
  | releaseConn id =>
    cases taken
    exact modifyFlags (fun b => by rw [RingManager.releaseWrites]) id k
  | route key =>
    simp only [Manager.apply, bind, Except.bind] at taken
    split at taken <;> try contradiction
    rename_i routed
    cases taken
    exact RingInvariant.routeKeeps (P := SameFlags m) rt (fun _ => rfl)
      (fun id k => modifyFlags (fun _ => by rfl) id k) (fun n held k => (adjustFlags rt n k).trans (held k)) routed k
  | proactiveAdjust loadWindow =>
    cases taken
    exact proactiveFlags rt m loadWindow k
  | beginSlowStart id =>
    cases taken
    unfold Manager.beginSlowStart
    split <;> rfl
  | cancelSlowStart id =>
    cases taken
    rfl
  | slowStartTick errorRate =>
    cases taken
    exact RingInvariant.slowStartTickKeeps (P := SameFlags m) rt errorRate (fun _ _ held => held)
      (fun n id count held k => (setFieldFlags rt n (fun _ => by rfl) id k).trans (held k)) (fun _ => rfl) k

end

/-! ### Requests -/

section
omit [GoMath F] [GoRoots F]

/-- What a handler that is let through makes of the desk. -/
def Obeys (s : Server F) (r : Request F) (out : Server F × Response F) : Prop :=
  out.1.desk = (r.order.map s.desk.obey).getD s.desk ∧ out.1.token = s.token

theorem orderNone {r : Request F}
    (elsewhere : r.path ∉ [ascii "/admin/mode", ascii "/admin/drain", ascii "/admin/drain/all"]) : r.order = none := by
  simp only [List.mem_cons, List.not_mem_nil, or_false, not_or] at elsewhere
  unfold Request.order
  rw [if_neg elsewhere.1, if_neg elsewhere.2.1, if_neg elsewhere.2.2, ite_self]

theorem obeysNothing {s : Server F} {r : Request F} (none_ : r.order = none) (response : Response F) :
    Obeys s r (s, response) := by
  refine ⟨?_, rfl⟩
  rw [none_]
  rfl

theorem setModeDesk (s : Server F) (agent : Agent F) (known : s.agent = some agent) (mode : AgentMode)
    (weights : List F) :
    ({ s with agent := some (agent.setMode mode weights) } : Server F).desk = s.desk.obey (.mode mode) := by
  unfold Server.desk Desk.obey
  rw [known]
  dsimp only [Option.map_some]
  rw [Rl.setModeMode]

theorem ringDesk {s : Server F} {ring next : Manager F} (known : s.ring = some ring) {order : Order}
    (flags : ∀ k, flag next k = (Desk.obey ⟨none, flag ring⟩ order).draining k)
    (drains : order.Drains) :
    ({ s with ring := some next } : Server F).desk = s.desk.obey order := by
  have draining : (({ s with ring := some next } : Server F).desk).draining = (s.desk.obey order).draining := by
    funext k
    refine (flags k).trans ?_
    unfold Server.desk
    rw [known]
    cases order <;> rfl
  cases order with
  | mode m => exact drains.elim
  | drain | drainAll => exact congrArg (Desk.mk _) draining

theorem unposted {r : Request F} (other : r.method ≠ post) : r.order = none := if_pos other

theorem getUnposted {r : Request F} (asks : r.method = get) : r.order = none :=
  unposted fun is => absurd (asks.symm.trans is) (by decide)

theorem modeOrder {r : Request F} (at_ : r.path = ascii "/admin/mode") (posted : r.method = post) :
    r.order = match r.body.mode with
      | .error _ => none
      | .ok req => (modeOf req.mode).bind fun m =>
        if m = .manual ∧ req.weights.length = 0 then none else some (.mode m) := by
  rw [Request.order, if_neg (not_not_intro posted), if_pos at_]

theorem modeless {s : Server F} (disabled : s.agent = none) {r : Request F} (at_ : r.path = ascii "/admin/mode")
    (posted : r.method = post) (response : Response F) : Obeys s r (s, response) := by
  refine ⟨?_, rfl⟩
  have still : ∀ m, s.desk.obey (.mode m) = s.desk := by
    intro m
    unfold Server.desk Desk.obey
    rw [disabled]
    rfl
  cases ordered : r.order with
  | none => rfl
  | some order =>
    rw [modeOrder at_ posted] at ordered
    split at ordered
    · cases ordered
    · obtain ⟨m, _, given⟩ := Option.bind_eq_some_iff.mp ordered
      split at given
      · cases given
      · cases given
        exact (still m).symm

theorem modeObeys {s : Server F} {r : Request F} (at_ : r.path = ascii "/admin/mode") :
    Obeys s r (handleMode s r) := by
  unfold handleMode
  split
  · exact obeysNothing (getUnposted ‹_›) _
  · split
    · rename_i posted
      have order := modeOrder at_ posted
      unfold handleSetMode
      split
      · exact modeless ‹_› at_ posted _
      · rename_i agent known
        split
        · rename_i unread
          rw [unread] at order
          exact obeysNothing order _
        · rename_i req read
          rw [read] at order
          split
          · rename_i invalid
            simp only [invalid, Option.bind_none] at order
            exact obeysNothing order _
          · rename_i mode valid
            simp only [valid, Option.bind_some] at order
            split
            · rename_i weightless
              rw [if_pos weightless] at order
              exact obeysNothing order _
            · rename_i weighted
              rw [if_neg weighted] at order
              refine ⟨?_, rfl⟩
              rw [order]
              exact setModeDesk s agent known mode req.weights
    · exact obeysNothing (unposted ‹_›) _

theorem ringless {s : Server F} (missing : s.ring = none) {order : Order} (drains : order.Drains) :
    s.desk.obey order = s.desk := by
  have none_ : s.desk.draining = fun _ => none := by
    unfold Server.desk
    rw [missing]
    rfl
  cases order with
  | mode m => exact drains.elim
  | drain id draining =>
    unfold Desk.obey
    rw [none_]
    simp only [Option.map_none, ite_self]
    exact congrArg (Desk.mk _) none_.symm
  | drainAll draining =>
    unfold Desk.obey
    rw [none_]
    exact congrArg (Desk.mk _) none_.symm

/-- Without a ring the desk holds no flag that an order could move. -/
theorem ringMissing {s : Server F} (missing : s.ring = none) {r : Request F}
    (drains : ∀ order, r.order = some order → order.Drains) (response : Response F) : Obeys s r (s, response) := by
  refine ⟨?_, rfl⟩
  cases ordered : r.order with
  | none => rfl
  | some order => exact (ringless missing (drains order ordered)).symm

theorem drainOrder {r : Request F} (at_ : r.path = ascii "/admin/drain") (posted : r.method = post) :
    r.order = match r.body.drain with
      | .error _ => none
      | .ok req => some (.drain req.backendID req.draining) := by
  rw [Request.order, if_neg (not_not_intro posted), if_neg (by rw [at_]; decide), if_pos at_]

theorem drainAllOrder {r : Request F} (at_ : r.path = ascii "/admin/drain/all") (posted : r.method = post) :
    r.order = match r.body.drainAll with
      | .error _ => none
      | .ok draining => some (.drainAll draining) := by
  rw [Request.order, if_neg (not_not_intro posted), if_neg (by rw [at_]; decide), if_neg (by rw [at_]; decide),
    if_pos at_]

theorem drainObeys {s : Server F} {r : Request F} (at_ : r.path = ascii "/admin/drain") (rt : Runtime)
    (views : UInt32 → Manager F) : Obeys s r (handleDrain s r rt views) := by
  unfold handleDrain
  split
  · rename_i missing
    refine ringMissing missing (fun order ordered => ?_) _
    by_cases posted : r.method = post
    · rw [drainOrder at_ posted] at ordered
      split at ordered <;> cases ordered
      trivial
    · cases (unposted posted).symm.trans ordered
  · rename_i ring known
    split
    · exact obeysNothing (getUnposted ‹_›) _
    · split
      · rename_i posted
        have ordered := drainOrder at_ posted
        unfold handleSetDrain
        split
        · rename_i unread
          rw [unread] at ordered
          exact obeysNothing ordered _
        · rename_i req read
          rw [read] at ordered
          have desk := ringDesk known (drainFlags rt ring req.backendID req.draining) trivial
          dsimp only
          split
          · exact ⟨by rw [ordered]; exact desk, rfl⟩
          · exact ⟨by rw [ordered]; exact desk, rfl⟩
      · exact obeysNothing (unposted ‹_›) _

theorem drainAllObeys {s : Server F} {r : Request F} (at_ : r.path = ascii "/admin/drain/all") (rt : Runtime) :
    Obeys s r (handleDrainAll s r rt) := by
  unfold handleDrainAll
  split
  · rename_i missing
    refine ringMissing missing (fun order ordered => ?_) _
    by_cases posted : r.method = post
    · rw [drainAllOrder at_ posted] at ordered
      split at ordered <;> cases ordered
      trivial
    · cases (unposted posted).symm.trans ordered
  · rename_i ring known
    split
    · exact obeysNothing (unposted ‹_›) _
    · rename_i posted
      have ordered := drainAllOrder at_ (not_not.mp posted)
      split
      · rename_i unread
        rw [unread] at ordered
        exact obeysNothing ordered _
      · rename_i draining read
        rw [read] at ordered
        refine ⟨?_, rfl⟩
        rw [ordered]
        exact ringDesk known (drainAllFlags rt ring draining) trivial

end

section
omit [GoRoots F]

theorem runObeys {s : Server F} {r : Request F} {rt : Runtime} {views : UInt32 → Manager F} {route : Route}
    (listed : (r.path, route) ∈ routes) {out : Server F × Response F} (ran : s.run r rt views route = .ok out) :
    Obeys s r out := by
  have silent : r.path ∉ [ascii "/admin/mode", ascii "/admin/drain", ascii "/admin/drain/all"] →
      ∀ {x : Go (Response F)}, (do return (s, ← x)) = .ok out → Obeys s r out := by
    intro elsewhere x done
    cases x with
    | error p => cases done
    | ok response =>
      cases done
      exact obeysNothing (orderNone elsewhere) response
  simp only [routes, List.mem_cons, List.not_mem_nil, or_false, Prod.mk.injEq] at listed
  rcases listed with ⟨at_, rfl⟩ | ⟨at_, rfl⟩ | ⟨at_, rfl⟩ | ⟨at_, rfl⟩ | ⟨at_, rfl⟩ | ⟨at_, rfl⟩ | ⟨at_, rfl⟩
  · exact silent (by rw [at_]; decide) ran
  · exact silent (by rw [at_]; decide) ran
  · cases ran
    exact modeObeys at_
  · cases ran
    exact obeysNothing (orderNone (by rw [at_]; decide)) _
  · cases ran
    exact drainObeys at_ rt views
  · cases ran
    exact drainAllObeys at_ rt
  · cases ran
    exact obeysNothing (orderNone (by rw [at_]; decide)) _

theorem serveDesk {s : Server F} {r : Request F} {rt : Runtime} {views : UInt32 → Manager F}
    {out : Server F × Response F} (served : s.serve r rt views = .ok out) :
    out.1.desk = s.desk.after s.token (.request r rt views) ∧ out.1.token = s.token := by
  have unchanged : r.order = none → s.desk.after s.token (.request r rt views) = s.desk := by
    intro none_
    unfold Desk.after
    dsimp only
    rw [none_]
    exact ite_self _
  unfold Server.serve at served
  split at served
  · rename_i health
    cases served
    exact ⟨(unchanged (orderNone (by rw [health]; decide))).symm, rfl⟩
  · split at served
    · rename_i missing
      have elsewhere : r.path ∉ [ascii "/admin/mode", ascii "/admin/drain", ascii "/admin/drain/all"] := by
        intro inside
        simp only [List.find?_eq_none, routes, List.forall_mem_cons, decide_eq_true_eq] at missing
        simp only [List.mem_cons, List.not_mem_nil, or_false] at inside
        obtain ⟨_, _, mode, _, drain, drainAll, _⟩ := missing
        rcases inside with at_ | at_ | at_
        · exact mode at_.symm
        · exact drain at_.symm
        · exact drainAll at_.symm
      cases served
      exact ⟨(unchanged (orderNone elsewhere)).symm, rfl⟩
    · rename_i path route found
      have at_ : path = r.path := by simpa using List.find?_some found
      subst at_
      split at served
      · rename_i lets
        obtain ⟨desk, token⟩ := runObeys (List.mem_of_find?_eq_some found) served
        refine ⟨desk.trans ?_, token⟩
        have given : s.token = [] ∨ (requestToken r ≠ [] ∧ requestToken r = s.token) := by
          simpa [Server.authorised] using lets
        exact (if_pos given).symm
      · rename_i refuses
        have missing : ¬ (s.token = [] ∨ (requestToken r ≠ [] ∧ requestToken r = s.token)) := by
          simpa [Server.authorised] using refuses
        cases served
        exact ⟨(if_neg missing).symm, rfl⟩

end

/-! ### Every run -/

theorem decideMode {s t : Shared F} {rt : Nat → Runtime} {state : List F} {ids : List UInt32} {wait : Rl.Wait}
    (decided : s.decide rt state ids wait = .ok t) : t.agent.mode = s.agent.mode := by
  unfold Shared.decide at decided
  simp only [bind, Except.bind] at decided
  split at decided
  · contradiction
  · split at decided
    · contradiction
    · rename_i stepped
      cases decided
      exact Rl.stepFromMode stepped

theorem agentDesk {s t : Shared F} {e : SharedEvent F} (own : ofAgent e = true) (taken : s.exec e = some t) :
    t.agent.mode = s.agent.mode ∧ SameFlags s.ring t.ring := by
  cases e with
  | ring rt op => cases own
  | setMode mode weights => cases own
  | step rt collector wait =>
    rw [Rl.stepRing taken]
    refine ⟨?_, fun _ => rfl⟩
    simp only [Shared.exec] at taken
    split at taken
    · contradiction
    · split at taken
      · cases taken
        rfl
      · exact decideMode (goReturned taken)
  | write rt =>
    simp only [Shared.exec] at taken
    split at taken
    · contradiction
    · cases taken
      exact ⟨rfl, fun k => setFieldFlags rt s.ring (fun _ => by rfl) _ k⟩
  | hotReload kan =>
    cases taken
    exact ⟨rfl, fun _ => rfl⟩
  | resetProjector =>
    cases taken
    exact ⟨rfl, fun _ => rfl⟩

theorem execDesk {d next : Daemon F} {e : Event F} (taken : d.exec e = some next) :
    next.server.desk = d.server.desk.after d.server.token e ∧ next.server.token = d.server.token := by
  cases e with
  | request r rt views =>
    obtain ⟨out, served, rfl⟩ := Option.map_eq_some_iff.mp taken
    exact serveDesk (goReturned served)
  | ring rt op =>
    obtain ⟨ring, known, taken⟩ := Option.bind_eq_some_iff.mp taken
    obtain ⟨m, applied, taken⟩ := Option.bind_eq_some_iff.mp taken
    cases taken
    have flags := applyFlags (goReturned applied)
    refine ⟨?_, rfl⟩
    have draining : ∀ k, flag m k = (d.server.desk.registers op).draining k := by
      intro k
      rw [flags]
      have before : flag ring = d.server.desk.draining := by
        funext j
        unfold Server.desk flag
        rw [known]
        rfl
      rw [before]
      cases op <;> rfl
    have mode : (d.server.desk.registers op).mode = d.server.desk.mode := by cases op <;> rfl
    unfold Desk.after
    exact congrArg₂ Desk.mk mode.symm (funext draining)
  | agent e =>
    obtain ⟨agent, known, taken⟩ := Option.bind_eq_some_iff.mp taken
    obtain ⟨ring, has, taken⟩ := Option.bind_eq_some_iff.mp taken
    split at taken
    · rename_i own
      obtain ⟨s, moved, taken⟩ := Option.bind_eq_some_iff.mp taken
      cases taken
      obtain ⟨mode, flags⟩ := agentDesk own moved
      refine ⟨?_, rfl⟩
      unfold Desk.after Server.desk
      rw [known, has]
      exact congrArg₂ Desk.mk (congrArg some mode) (funext flags)
    · cases taken

/-- The mode and the draining flags follow the authorised orders and the registrations alone:
whatever comes between, and any request without the token, leaves them. -/
theorem ordersExact {d final : Daemon F} {events : List (Event F)} (run : Run (Does Daemon.exec) d events final) :
    final.server.desk = events.foldl (Desk.after d.server.token) d.server.desk := by
  induction run with
  | nil d => rfl
  | @cons d e t events final head tail ih =>
    obtain ⟨desk, token⟩ := execDesk head
    rw [ih, List.foldl_cons, desk, token]

/-! ### With and without the token -/

def unread {α : Type} : Except Bytes α := .error (ascii "EOF")

def drainOne (token : Bytes) : Request ℚ where
  method := post
  path := ascii "/admin/drain"
  adminTokenHeader := token
  authorization := []
  query := fun _ => []
  body := ⟨unread, .ok ⟨1, true⟩, unread⟩

def guarded : Daemon ℚ where
  server := {
    token := ascii "s3cret"
    recorder := none
    agent := some (Rl.newAgent 0 none (CbfProjector.newCBFProjector 0 0))
    modelVersion := []
    ring := some (RingManager.newManager (Config.load {}))
    coordinator := none }
  writing := []
  status := .free

def attempts : List (Event ℚ) :=
  [.ring .plain (.addBackend { id := 1, health := true }),
    .request (drainOne (ascii "guess")) .plain fun _ => RingManager.newManager (Config.load {}),
    .request (drainOne (ascii "s3cret")) .plain fun _ => RingManager.newManager (Config.load {})]

theorem ordersExactAttempts : ∃ (_ : GoRoots ℚ) (final : Daemon ℚ),
    Run (Does Daemon.exec) guarded (attempts.take 2) final ∧ final.server.desk.draining 1 = some false ∧
      ∃ later, Run (Does Daemon.exec) guarded attempts later ∧ later.server.desk.draining 1 = some true := by
  let roots : GoRoots ℚ := ⟨id, id⟩
  have first : Run (Does Daemon.exec) guarded (attempts.take 2) _ := .cons rfl (.cons rfl (.nil _))
  have whole : Run (Does Daemon.exec) guarded attempts _ := .cons rfl (.cons rfl (.cons rfl (.nil _)))
  refine ⟨roots, _, first, ?_, _, whole, ?_⟩
  · rw [ordersExact first]
    rfl
  · rw [ordersExact whole]
    rfl

end OmegaLb.Admin
