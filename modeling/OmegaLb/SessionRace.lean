import OmegaLb.Affinity

/-! Requests of stateful sessions as they run side by side: each looks its session up, falls
back to the ring and registers, in critical sections of their own, while expiries started by
earlier lookups are still to run. -/
namespace OmegaLb.SessionRace
open GoText (Bytes)
open RingManager RingInvariant RingReference
open Affinity
open StepRun (Run Does)
open Config (RingConfig)

variable {F : Type}

/-- Where a request stands between two accesses to shared state: `looked` holds the entry read
under the read lock, `pinned` one that was still in time, `down` one whose backend is not
healthy and whose key RouteStateful is about to expire. -/
inductive Phase where
  | called
  | looked (rec : Option AffinityRecord)
  | pinned (rec : AffinityRecord)
  | down (rec : AffinityRecord)
  | missed
  | routed (backendID : UInt32)
  | done
  deriving DecidableEq

structure Request where
  sessionKey : Bytes
  fallbackHash : UInt32
  phase : Phase
  deriving DecidableEq

/-- `expiries` are the goroutines Route has started and that did not run yet, each with the
entry it found late. -/
structure World (F : Type) where
  sticky : StickyManager F
  clock : Int
  requests : List Request
  expiries : List (Bytes × AffinityRecord)

inductive Event (F : Type) where
  | manager (op : Op F)
  | pass (now : Int)
  | call (sessionKey : Bytes) (fallbackHash : UInt32)
  | proceed (i : Nat)
  | lazyExpire (j : Nat)
  | expire (sessionKey : Bytes)
  | gc

def World.entry (w : World F) (sessionKey : Bytes) : Option AffinityRecord :=
  w.sticky.affinity.sessions.lookup sessionKey

def World.late (w : World F) (rec : AffinityRecord) : Bool := w.sticky.affinity.late w.clock rec

def World.healthy (w : World F) (backendID : UInt32) : Bool :=
  match w.sticky.manager.backends.lookup backendID with
  | some b => b.health
  | none => false

def World.become (w : World F) (i : Nat) (phase : Phase) : World F :=
  { w with requests := w.requests.modify i fun r => { r with phase := phase } }

def World.expireKey (w : World F) (sessionKey : Bytes) : World F :=
  { w with sticky.affinity := w.sticky.affinity.expire sessionKey }

def Accepts (a : AffinityTable) (sessionKey : Bytes) : Prop :=
  sessionKey ≠ [] ∧ GoMap.size a.sessions < a.maxSize

instance (a : AffinityTable) (sessionKey : Bytes) : Decidable (Accepts a sessionKey) := by
  unfold Accepts
  infer_instance

variable [GoFloat F]

def World.routeRing (rt : Runtime) (w : World F) (i : Nat) (fallbackHash : UInt32) : Option (World F) :=
  match w.sticky.manager.route rt fallbackHash with
  | .ok (m, .ok backendID) => some ({ w with sticky.manager := m }.become i (.routed backendID))
  | .ok (m, .error _) => some ({ w with sticky.manager := m }.become i .done)
  | .error _ => none

def World.proceed (rt : Runtime) (w : World F) (i : Nat) (r : Request) : Option (World F) :=
  match r.phase with
  | .called => some (w.become i (.looked (if r.sessionKey = [] then none else w.entry r.sessionKey)))
  | .looked none => some (w.become i .missed)
  | .looked (some rec) =>
    if w.late rec then
      some { w.become i .missed with expiries := w.expiries ++ [(r.sessionKey, rec)] }
    else some (w.become i (.pinned rec))
  | .pinned rec => some (w.become i (if w.healthy rec.backendID then .done else .down rec))
  | .down _ => some ((w.expireKey r.sessionKey).become i .missed)
  | .missed => w.routeRing rt i r.fallbackHash
  | .routed backendID =>
    some ({ w with
      sticky.affinity := w.sticky.affinity.register w.clock r.sessionKey backendID }.become i .done)
  | .done => none

def exec (w : World F) (e : Runtime × Event F) : Option (World F) :=
  match e.2 with
  | .manager op => (w.sticky.manager.apply e.1 op).toOption.map fun m => { w with sticky.manager := m }
  | .pass now => if w.clock ≤ now then some { w with clock := now } else none
  | .call sessionKey fallbackHash =>
    some { w with requests := w.requests ++ [⟨sessionKey, fallbackHash, .called⟩] }
  | .proceed i => (w.requests[i]?).bind (w.proceed e.1 i)
  | .lazyExpire j => (w.expiries[j]?).map fun x =>
      { w.expireKey x.1 with expiries := w.expiries.eraseIdx j }
  | .expire sessionKey => some (w.expireKey sessionKey)
  | .gc => some { w with sticky.affinity := (w.sticky.affinity.gc w.clock).1 }

def start (cfg : RingConfig F) (ttl maxSize clock : Int) : World F :=
  ⟨⟨newManager cfg, newAffinityTable ttl maxSize⟩, clock, [], []⟩

/-! ### What an access does -/

inductive Proceeds (rt : Runtime) (w : World F) (i : Nat) (r : Request) : World F → Prop where
  | reads (called : r.phase = .called) : Proceeds rt w i r
      (w.become i (.looked (if r.sessionKey = [] then none else w.entry r.sessionKey)))
  | absent (looked : r.phase = .looked none) : Proceeds rt w i r (w.become i .missed)
  | finds (rec : AffinityRecord) (looked : r.phase = .looked (some rec)) (inTime : w.late rec = false) :
      Proceeds rt w i r (w.become i (.pinned rec))
  | starts (rec : AffinityRecord) (looked : r.phase = .looked (some rec)) (late : w.late rec = true) :
      Proceeds rt w i r { w.become i .missed with expiries := w.expiries ++ [(r.sessionKey, rec)] }
  | hits (rec : AffinityRecord) (pinned : r.phase = .pinned rec)
      (healthy : w.healthy rec.backendID = true) : Proceeds rt w i r (w.become i .done)
  | fails (rec : AffinityRecord) (pinned : r.phase = .pinned rec)
      (unhealthy : w.healthy rec.backendID = false) : Proceeds rt w i r (w.become i (.down rec))
  | drops (rec : AffinityRecord) (down : r.phase = .down rec) :
      Proceeds rt w i r ((w.expireKey r.sessionKey).become i .missed)
  | routes (m : Manager F) (backendID : UInt32) (missed : r.phase = .missed)
      (answer : w.sticky.manager.route rt r.fallbackHash = .ok (m, .ok backendID)) :
      Proceeds rt w i r ({ w with sticky.manager := m }.become i (.routed backendID))
  | unrouted (m : Manager F) (err : RouteError) (missed : r.phase = .missed)
      (answer : w.sticky.manager.route rt r.fallbackHash = .ok (m, .error err)) :
      Proceeds rt w i r ({ w with sticky.manager := m }.become i .done)
  | registers (backendID : UInt32) (routed : r.phase = .routed backendID) : Proceeds rt w i r
      ({ w with
        sticky.affinity := w.sticky.affinity.register w.clock r.sessionKey backendID }.become i .done)

theorem proceeds {rt : Runtime} {w next : World F} {i : Nat} {r : Request}
    (taken : w.proceed rt i r = some next) : Proceeds rt w i r next := by
  unfold World.proceed at taken
  split at taken
  · cases taken
    exact .reads ‹_›
  · cases taken
    exact .absent ‹_›
  · split at taken
    · cases taken
      exact .starts _ ‹_› ‹_›
    · cases taken
      exact .finds _ ‹_› (Bool.eq_false_iff.mpr ‹_›)
  · rename_i rec pinned
    cases healthy : w.healthy rec.backendID with
    | true =>
      rw [healthy] at taken
      cases taken
      exact .hits rec pinned healthy
    | false =>
      rw [healthy] at taken
      cases taken
      exact .fails rec pinned healthy
  · cases taken
    exact .drops _ ‹_›
  · unfold World.routeRing at taken
    split at taken <;> try contradiction
    · cases taken
      exact .routes _ _ ‹_› ‹_›
    · cases taken
      exact .unrouted _ _ ‹_› ‹_›
  · cases taken
    exact .registers _ ‹_›
  · contradiction

inductive Taken (w : World F) : Runtime × Event F → World F → Prop where
  | manager {rt op m} (applied : (w.sticky.manager.apply rt op).toOption = some m) :
      Taken w (rt, .manager op) { w with sticky.manager := m }
  | pass {rt now} (later : w.clock ≤ now) : Taken w (rt, .pass now) { w with clock := now }
  | call (rt sessionKey fallbackHash) : Taken w (rt, .call sessionKey fallbackHash)
      { w with requests := w.requests ++ [⟨sessionKey, fallbackHash, .called⟩] }
  | proceed {rt i r next} (here : w.requests[i]? = some r) (step : Proceeds rt w i r next) :
      Taken w (rt, .proceed i) next
  | lazyExpire {rt j x} (there : w.expiries[j]? = some x) : Taken w (rt, .lazyExpire j)
      { w.expireKey x.1 with expiries := w.expiries.eraseIdx j }
  | expire (rt sessionKey) : Taken w (rt, .expire sessionKey) (w.expireKey sessionKey)
  | gc (rt) : Taken w (rt, .gc) { w with sticky.affinity := (w.sticky.affinity.gc w.clock).1 }

theorem execTaken {w next : World F} {e : Runtime × Event F} (taken : exec w e = some next) :
    Taken w e next := by
  obtain ⟨rt, e⟩ := e
  cases e with
  | manager op =>
    obtain ⟨m, applied, same⟩ := Option.map_eq_some_iff.mp taken
    cases same
    exact .manager applied
  | pass now =>
    obtain ⟨later, same⟩ := Option.ite_none_right_eq_some.mp taken
    cases same
    exact .pass later
  | call sessionKey fallbackHash =>
    cases taken
    exact .call rt sessionKey fallbackHash
  | proceed i =>
    obtain ⟨r, here, step⟩ := Option.bind_eq_some_iff.mp taken
    exact .proceed here (proceeds step)
  | lazyExpire j =>
    obtain ⟨x, there, same⟩ := Option.map_eq_some_iff.mp taken
    cases same
    exact .lazyExpire there
  | expire sessionKey =>
    cases taken
    exact .expire rt sessionKey
  | gc =>
    cases taken
    exact .gc rt

/-! ### What is written -/

theorem registerLookup (a : AffinityTable) (now : Int) (sessionKey : Bytes) (backendID : UInt32)
    (k : Bytes) : (a.register now sessionKey backendID).sessions.lookup k =
      if Accepts a sessionKey ∧ k = sessionKey then some ⟨backendID, now⟩ else a.sessions.lookup k := by
  unfold AffinityTable.register Accepts
  split
  · simp [*]
  · split
    · rename_i full
      rw [if_neg fun accepted => absurd full (not_le.mpr accepted.1.2)]
    · rename_i nonempty room
      by_cases same : k = sessionKey
      · subst same
        rw [AList.lookup_insert, if_pos ⟨⟨nonempty, not_le.mp room⟩, rfl⟩]
      · rw [AList.lookup_insert_ne same, if_neg fun accepted => same accepted.2]

theorem expireLookup (a : AffinityTable) (sessionKey k : Bytes) :
    (a.expire sessionKey).sessions.lookup k = if k = sessionKey then none else a.sessions.lookup k := by
  unfold AffinityTable.expire
  by_cases same : k = sessionKey
  · subst same
    rw [AList.lookup_erase, if_pos rfl]
  · rw [AList.lookup_erase_ne same, if_neg same]

omit [GoFloat F] in
theorem expireKeyEntry (w : World F) (sessionKey key : Bytes) :
    (w.expireKey sessionKey).entry key = if key = sessionKey then none else w.entry key :=
  expireLookup w.sticky.affinity sessionKey key

omit [GoFloat F] in
theorem expireKeyGone (w : World F) (key : Bytes) : (w.expireKey key).entry key = none :=
  (expireKeyEntry w key key).trans (if_pos rfl)

omit [GoFloat F] in
theorem expireKeyOther {w : World F} {sessionKey key : Bytes} {rec : AffinityRecord}
    (other : key ≠ sessionKey) (found : w.entry key = some rec) :
    (w.expireKey sessionKey).entry key = some rec :=
  (expireKeyEntry w sessionKey key).trans (if_neg other ▸ found)

theorem gcSweep (a : AffinityTable) (now : Int) (es : List ((_ : Bytes) × AffinityRecord))
    (acc : AffinityTable × Int) (k : Bytes) :
    (es.foldl (fun (acc : AffinityTable × Int) e =>
        if a.late now e.2 then (acc.1.expire e.1, acc.2 + 1) else acc) acc).1.sessions.lookup k =
      if es.any fun e => decide (k = e.1) && a.late now e.2 then none else acc.1.sessions.lookup k := by
  induction es generalizing acc with
  | nil => simp
  | cons e rest ih =>
    rw [List.foldl_cons, ih, List.any_cons]
    cases late : a.late now e.2 with
    | false => rw [if_neg Bool.false_ne_true, Bool.and_false, Bool.false_or]
    | true =>
      rw [if_pos rfl, expireLookup, Bool.and_true]
      by_cases same : k = e.1
      · rw [if_pos same, decide_eq_true same, Bool.true_or, if_pos rfl, ite_self]
      · rw [if_neg same, decide_eq_false same, Bool.false_or]

theorem gcLookup (a : AffinityTable) (now : Int) (k : Bytes) :
    (a.gc now).1.sessions.lookup k = (a.sessions.lookup k).filter fun rec => !a.late now rec := by
  unfold AffinityTable.gc
  rw [gcSweep]
  cases found : a.sessions.lookup k with
  | none => simp
  | some rec =>
    have sole : ∀ e ∈ a.sessions.entries, k = e.1 → e.2 = rec := by
      rintro ⟨j, other⟩ listed same
      subst same
      have again := AList.mem_lookup_iff.mpr listed
      rw [Option.mem_def, found] at again
      exact (Option.some.inj again).symm
    have inside := AList.mem_lookup_iff.mp (Option.mem_def.mpr found)
    have swept : (a.sessions.entries.any fun e => decide (k = e.1) && a.late now e.2) =
        a.late now rec := by
      rw [Bool.eq_iff_iff, List.any_eq_true]
      constructor
      · rintro ⟨e, listed, hit⟩
        simp only [Bool.and_eq_true, decide_eq_true_eq] at hit
        rw [← sole e listed hit.1]
        exact hit.2
      · exact fun late => ⟨_, inside, by simp [late]⟩
    rw [swept, Option.filter_some]
    cases a.late now rec <;> rfl

theorem registerTtl (a : AffinityTable) (now : Int) (sessionKey : Bytes) (backendID : UInt32) :
    (a.register now sessionKey backendID).ttl = a.ttl := by
  unfold AffinityTable.register
  split
  · rfl
  · split <;> rfl

theorem gcTtl (a : AffinityTable) (now : Int) : (a.gc now).1.ttl = a.ttl := by
  unfold AffinityTable.gc
  refine List.foldlRecOn (motive := fun acc : AffinityTable × Int => acc.1.ttl = a.ttl) _ _ rfl fun acc held e _ => ?_
  split <;> exact held

theorem execClock {w next : World F} {e : Runtime × Event F} (taken : exec w e = some next) :
    w.clock ≤ next.clock ∧ next.sticky.affinity.ttl = w.sticky.affinity.ttl := by
  cases execTaken taken with
  | pass later => exact ⟨later, rfl⟩
  | proceed here step =>
    cases step with
    | registers backendID _ => exact ⟨Int.le_refl _, registerTtl _ _ _ _⟩
    | _ => exact ⟨Int.le_refl _, rfl⟩
  | gc rt => exact ⟨Int.le_refl _, gcTtl _ _⟩
  | _ => exact ⟨Int.le_refl _, rfl⟩

theorem execLate {w next : World F} {e : Runtime × Event F} (taken : exec w e = some next)
    {rec : AffinityRecord} (late : w.late rec = true) : next.late rec = true := by
  obtain ⟨clock, ttl⟩ := execClock taken
  unfold World.late AffinityTable.late at *
  rw [decide_eq_true_eq] at *
  omega

/-! ### One request undisturbed -/

omit [GoFloat F] in
@[simp] theorem becomeRequest (w : World F) (i : Nat) (phase : Phase) (k : Nat) :
    (w.become i phase).requests[k]? =
      if i = k then (w.requests[k]?).map fun r => { r with phase := phase } else w.requests[k]? := by
  rw [World.become, List.getElem?_modify]
  split
  · rfl
  · simp

def answered : Except RouteError (UInt32 × Bool) → Phase
  | .ok (_, true) => .done
  | .ok (backendID, false) => .routed backendID
  | .error _ => .done

def ReachesPhase (w : World F) (i : Nat) (sticky : StickyManager F) (phase : Phase) : Prop :=
  ∃ es next, Run (Does exec) w es next ∧ next.sticky = sticky ∧ next.clock = w.clock ∧
    (next.requests[i]?).map Request.phase = some phase

theorem proceedFirst (rt : Runtime) {w next : World F} {i : Nat} {r : Request}
    (here : w.requests[i]? = some r) (taken : w.proceed rt i r = some next) :
    exec w (rt, .proceed i) = some next := by
  simp only [exec, here, Option.bind_some, taken]

theorem reachesAfter {w next : World F} {i : Nat} {e : Runtime × Event F} {sticky : StickyManager F}
    {phase : Phase} (taken : exec w e = some next) (clock : next.clock = w.clock)
    (later : ReachesPhase next i sticky phase) : ReachesPhase w i sticky phase := by
  obtain ⟨es, last, run, same, time, reached⟩ := later
  exact ⟨e :: es, last, .cons taken run, same, time.trans clock, reached⟩

theorem missedFallsBack (rt : Runtime) {w : World F} {i : Nat} {r : Request}
    (here : w.requests[i]? = some r) (missed : r.phase = .missed)
    {first : Manager F × Except RouteError UInt32}
    (routed : w.sticky.manager.route rt r.fallbackHash = .ok first) :
    ReachesPhase w i ⟨first.1, w.sticky.affinity⟩ (answered (first.2.map fun id => (id, false))) := by
  obtain ⟨m, answer⟩ := first
  have taken : w.proceed rt i r = w.routeRing rt i r.fallbackHash := by
    simp only [World.proceed, missed]
  cases answer with
  | error e =>
    refine ⟨[(rt, .proceed i)], { w with sticky.manager := m }.become i .done, ?_, rfl, rfl, ?_⟩
    · refine .cons (proceedFirst rt here ?_) (.nil _)
      rw [taken]
      simp only [World.routeRing, routed]
    · simp [here, answered, Except.map]
  | ok backendID =>
    refine ⟨[(rt, .proceed i)], { w with sticky.manager := m }.become i (.routed backendID), ?_, rfl,
      rfl, ?_⟩
    · refine .cons (proceedFirst rt here ?_) (.nil _)
      rw [taken]
      simp only [World.routeRing, routed]
    · simp [here, answered, Except.map]

theorem expiredFallsBack (rt : Runtime) {w : World F} {i : Nat} {r : Request} {rec : AffinityRecord}
    (here : w.requests[i]? = some r) (down : r.phase = .down rec)
    {first : Manager F × Except RouteError UInt32}
    (routed : w.sticky.manager.route rt r.fallbackHash = .ok first) :
    ReachesPhase w i ⟨first.1, w.sticky.affinity.expire r.sessionKey⟩
      (answered (first.2.map fun id => (id, false))) := by
  have taken : w.proceed rt i r = some ((w.expireKey r.sessionKey).become i .missed) := by
    simp only [World.proceed, down]
  have now : ((w.expireKey r.sessionKey).become i .missed).requests[i]? =
      some { r with phase := .missed } := by simp [World.expireKey, here]
  exact reachesAfter (proceedFirst rt here taken) rfl (missedFallsBack rt now rfl routed)

/-- Without a record the call is that of the ring. -/
theorem unpinnedRoutes {rt : Runtime} {w : World F} {r : Request}
    {out : StickyManager F × Except RouteError (UInt32 × Bool)}
    (routed : w.sticky.routeStateful rt w.clock r.sessionKey r.fallbackHash = .ok out)
    (miss : w.sticky.affinity.route w.clock r.sessionKey = none) :
    ∃ first, w.sticky.manager.route rt r.fallbackHash = .ok first ∧
      out = (⟨first.1, w.sticky.affinity⟩, first.2.map fun id => (id, false)) := by
  simp only [StickyManager.routeStateful, miss, bind, Except.bind] at routed
  split at routed <;> try contradiction
  cases routed
  exact ⟨_, ‹_›, rfl⟩

/-- With a record whose backend is down the call expires it and is that of the ring. -/
theorem downRoutes {rt : Runtime} {w : World F} {r : Request} {backendID : UInt32}
    {out : StickyManager F × Except RouteError (UInt32 × Bool)}
    (routed : w.sticky.routeStateful rt w.clock r.sessionKey r.fallbackHash = .ok out)
    (hit : w.sticky.affinity.route w.clock r.sessionKey = some backendID) (down : ¬ w.healthy backendID = true) :
    ∃ first, w.sticky.manager.route rt r.fallbackHash = .ok first ∧
      out = (⟨first.1, w.sticky.affinity.expire r.sessionKey⟩, first.2.map fun id => (id, false)) := by
  unfold World.healthy at down
  simp only [StickyManager.routeStateful, hit] at routed
  cases found : w.sticky.manager.backends.lookup backendID <;>
    simp only [found] at down routed <;>
    rw [if_neg down] at routed <;>
    simp only [bind, Except.bind] at routed <;>
    split at routed <;> try contradiction
  all_goals
    cases routed
    exact ⟨_, ‹_›, rfl⟩

theorem pinnedAnswers (rt : Runtime) {w : World F} {i : Nat} {r : Request} {rec : AffinityRecord}
    (here : w.requests[i]? = some r) (pinned : r.phase = .pinned rec)
    {out : StickyManager F × Except RouteError (UInt32 × Bool)}
    (hit : w.sticky.affinity.route w.clock r.sessionKey = some rec.backendID)
    (routed : w.sticky.routeStateful rt w.clock r.sessionKey r.fallbackHash = .ok out) :
    ReachesPhase w i out.1 (answered out.2) := by
  have taken : w.proceed rt i r =
      some (w.become i (if w.healthy rec.backendID then .done else .down rec)) := by
    simp only [World.proceed, pinned]
  refine reachesAfter (proceedFirst rt here taken) rfl ?_
  by_cases healthy : w.healthy rec.backendID = true
  · have honoured : w.sticky.honoured w.clock r.sessionKey = some rec.backendID := by
      refine honouredExact.mpr ⟨hit, ?_⟩
      unfold World.healthy at healthy
      split at healthy <;> try contradiction
      exact ⟨_, ‹_›, healthy⟩
    rw [routeStatefulHit rt honoured] at routed
    cases routed
    rw [if_pos healthy]
    exact ⟨[], _, .nil _, rfl, rfl, by simp [here, answered]⟩
  · obtain ⟨first, inner, same⟩ := downRoutes routed hit healthy
    rw [if_neg healthy, same]
    have now : (w.become i (.down rec)).requests[i]? = some { r with phase := .down rec } := by
      simp [here]
    exact expiredFallsBack rt now rfl inner

/-- Undisturbed, a request does what RouteStateful does. -/
theorem undisturbed (rt : Runtime) {w : World F} {i : Nat} {r : Request}
    (here : w.requests[i]? = some r) (called : r.phase = .called)
    {out : StickyManager F × Except RouteError (UInt32 × Bool)}
    (routed : w.sticky.routeStateful rt w.clock r.sessionKey r.fallbackHash = .ok out) :
    ReachesPhase w i out.1 (answered out.2) := by
  have read : w.proceed rt i r =
      some (w.become i (.looked (if r.sessionKey = [] then none else w.entry r.sessionKey))) := by
    simp only [World.proceed, called]
  refine reachesAfter (proceedFirst rt here read) rfl ?_
  cases found : (if r.sessionKey = [] then none else w.entry r.sessionKey) with
  | none =>
    have miss : w.sticky.affinity.route w.clock r.sessionKey = none := by
      unfold World.entry at found
      unfold AffinityTable.route
      split at found <;> simp_all
    obtain ⟨first, inner, same⟩ := unpinnedRoutes routed miss
    have looked : (w.become i (.looked none)).requests[i]? = some { r with phase := .looked none } := by
      simp [here]
    refine same ▸ reachesAfter (proceedFirst rt looked rfl) rfl ?_
    refine missedFallsBack rt (r := { r with phase := .missed }) (by simp [here]) rfl inner
  | some rec =>
    have nonempty : r.sessionKey ≠ [] := by
      intro empty
      rw [if_pos empty] at found
      contradiction
    rw [if_neg nonempty] at found
    have looked : (w.become i (.looked (some rec))).requests[i]? =
        some { r with phase := .looked (some rec) } := by simp [here]
    have checked : (w.become i (.looked (some rec))).proceed rt i { r with phase := .looked (some rec) } =
        if w.late rec then
          some { (w.become i (.looked (some rec))).become i .missed with
            expiries := w.expiries ++ [(r.sessionKey, rec)] }
        else some ((w.become i (.looked (some rec))).become i (.pinned rec)) := rfl
    have answer : w.sticky.affinity.route w.clock r.sessionKey =
        if w.late rec then none else some rec.backendID := by
      unfold World.entry at found
      simp only [AffinityTable.route, if_neg nonempty, found]
      rfl
    by_cases late : w.late rec = true
    · rw [if_pos late] at checked answer
      obtain ⟨first, inner, same⟩ := unpinnedRoutes routed answer
      refine same ▸ reachesAfter (proceedFirst rt looked checked) rfl ?_
      refine missedFallsBack rt (r := { r with phase := .missed }) (by simp [here]) rfl inner
    · rw [if_neg late] at checked answer
      refine reachesAfter (proceedFirst rt looked checked) rfl ?_
      refine pinnedAnswers rt (r := { r with phase := .pinned rec }) (by simp [here]) rfl answer routed

/-! ### Routing with one backend in rotation -/

theorem soleRoutes (rt : Runtime) {m : Manager F} (sound : Sound m) {id : UInt32}
    (serving : ∃ b ∈ GoMap.values m.backends, b.eligible = true ∧ 1 ≤ b.vnodeCount)
    (sole : ∀ b ∈ GoMap.values m.backends, b.eligible = true → b.id = id) {turn : Int}
    (count : goRem (m.reqCount + 1) m.cfg.adjustEveryN = .ok turn) (quiet : turn ≠ 0)
    (key : UInt32) : m.route rt key = .ok (counted m id, .ok id) := by
  obtain ⟨b, inside, eligible, positive⟩ := serving
  obtain ⟨k, found⟩ := GoMap.memValues.mp inside
  obtain ⟨vn, onRing, _⟩ := (ownerExact sound k).mpr ⟨b, found, eligible, positive⟩
  have nonempty : m.ring.length ≠ 0 := fun none_ => by
    rw [List.length_eq_zero_iff.mp none_] at onRing
    contradiction
  obtain ⟨chosen, registered, _, admitted, _, routed⟩ := routePicks rt sound nonempty key
  have same := sole chosen (GoMap.memValues.mpr ⟨_, registered⟩) admitted
  rw [routed, count, same]
  simp only [Except.bind, if_neg quiet]

theorem missedRoutes (rt : Runtime) {w : World F} {i : Nat} {r : Request} (here : w.requests[i]? = some r)
    (missed : r.phase = .missed) {m : Manager F} {backendID : UInt32}
    (answer : w.sticky.manager.route rt r.fallbackHash = .ok (m, .ok backendID)) :
    exec w (rt, .proceed i) = some ({ w with sticky.manager := m }.become i (.routed backendID)) := by
  refine proceedFirst rt here ?_
  simp only [World.proceed, missed, World.routeRing, answer]

end OmegaLb.SessionRace
