import OmegaLb.RingReference

/-! The session affinity table of affinity.go and RouteStateful over it. Times are nanoseconds;
the lazy expiry of a late entry runs in a goroutine of its own and is an operation here. -/
namespace OmegaLb.Affinity
open GoText (Bytes ascii)
open RingManager RingInvariant RingReference
open StepRun (Run)
open Config (RingConfig load)

structure AffinityRecord where
  backendID : UInt32
  createdAt : Int
  deriving DecidableEq, Repr

structure AffinityTable where
  sessions : GoMap Bytes AffinityRecord
  ttl : Int
  maxSize : Int

def newAffinityTable (ttl maxSize : Int) : AffinityTable where
  sessions := ∅
  ttl := if ttl ≤ 0 then 30 * 60 * 1000000000 else ttl
  maxSize := if maxSize ≤ 0 then 1000000 else maxSize

def AffinityTable.late (a : AffinityTable) (now : Int) (rec : AffinityRecord) : Bool :=
  decide (now - rec.createdAt > a.ttl)

def AffinityTable.route (a : AffinityTable) (now : Int) (sessionKey : Bytes) : Option UInt32 :=
  if sessionKey = [] then none
  else
    match a.sessions.lookup sessionKey with
    | none => none
    | some rec => if a.late now rec then none else some rec.backendID

def AffinityTable.register (a : AffinityTable) (now : Int) (sessionKey : Bytes) (backendID : UInt32) :
    AffinityTable :=
  if sessionKey = [] then a
  else if GoMap.size a.sessions ≥ a.maxSize then a
  else { a with sessions := a.sessions.insert sessionKey ⟨backendID, now⟩ }

def AffinityTable.expire (a : AffinityTable) (sessionKey : Bytes) : AffinityTable :=
  { a with sessions := a.sessions.erase sessionKey }

def AffinityTable.gc (a : AffinityTable) (now : Int) : AffinityTable × Int :=
  a.sessions.entries.foldl (fun (acc : AffinityTable × Int) e =>
    if a.late now e.2 then (acc.1.expire e.1, acc.2 + 1) else acc) (a, 0)

variable {F : Type}

structure StickyManager (F : Type) where
  manager : Manager F
  affinity : AffinityTable

/-- The backend a session's entry is honoured for: pinned in time, registered and healthy. -/
def StickyManager.honoured (s : StickyManager F) (now : Int) (sessionKey : Bytes) : Option UInt32 :=
  match s.affinity.route now sessionKey with
  | none => none
  | some backendID =>
    match s.manager.backends.lookup backendID with
    | some b => if b.health then some backendID else none
    | none => none

variable [GoFloat F]

def newStickyManager (cfg : RingConfig F) : StickyManager F :=
  ⟨newManager cfg, newAffinityTable 0 0⟩

/-- The flag of an answer says whether it is an affinity hit. -/
def StickyManager.routeStateful (rt : Runtime) (s : StickyManager F) (now : Int) (sessionKey : Bytes)
    (fallbackHash : UInt32) : Go (StickyManager F × Except RouteError (UInt32 × Bool)) :=
  match s.affinity.route now sessionKey with
  | some backendID =>
    let healthy := match s.manager.backends.lookup backendID with
      | some b => b.health
      | none => false
    if healthy then .ok (s, .ok (backendID, true))
    else do
      -- the pinned backend is down or gone: expire the entry and use the ring
      let (manager, answer) ← s.manager.route rt fallbackHash
      return (⟨manager, s.affinity.expire sessionKey⟩, answer.map fun id => (id, false))
  | none => do
    let (manager, answer) ← s.manager.route rt fallbackHash
    return (⟨manager, s.affinity⟩, answer.map fun id => (id, false))

omit [GoFloat F] in
theorem honouredExact {s : StickyManager F} {now : Int} {sessionKey : Bytes} {id : UInt32} :
    s.honoured now sessionKey = some id ↔ s.affinity.route now sessionKey = some id ∧
      ∃ b, s.manager.backends.lookup id = some b ∧ b.health = true := by
  unfold StickyManager.honoured
  cases pinned : s.affinity.route now sessionKey with
  | none => simp
  | some backendID =>
    dsimp only
    constructor
    · intro known
      split at known <;> try contradiction
      rename_i b found
      split at known <;> try contradiction
      cases known
      exact ⟨rfl, b, found, ‹_›⟩
    · rintro ⟨same, b, found, healthy⟩
      cases same
      simp only [found, healthy, if_true]

theorem routeStatefulHit (rt : Runtime) {s : StickyManager F} {now : Int} {sessionKey : Bytes}
    {id : UInt32} (hit : s.honoured now sessionKey = some id) (fallbackHash : UInt32) :
    s.routeStateful rt now sessionKey fallbackHash = .ok (s, .ok (id, true)) := by
  obtain ⟨pinned, b, found, healthy⟩ := honouredExact.mp hit
  unfold StickyManager.routeStateful
  simp only [pinned, found, healthy, if_true]

theorem routeStatefulMiss (rt : Runtime) {s : StickyManager F} {now : Int} {sessionKey : Bytes}
    (miss : s.honoured now sessionKey = none) (fallbackHash : UInt32) :
    ∃ affinity, s.routeStateful rt now sessionKey fallbackHash =
      (s.manager.route rt fallbackHash).map fun out =>
        (⟨out.1, affinity⟩, out.2.map fun id => (id, false)) := by
  unfold StickyManager.routeStateful
  split
  · rename_i backendID pinned
    refine ⟨s.affinity.expire sessionKey, ?_⟩
    have down : ¬ (match s.manager.backends.lookup backendID with
        | some b => b.health
        | none => false) = true := by
      split
      · rename_i b found
        intro healthy
        rw [honouredExact.mpr ⟨pinned, b, found, healthy⟩] at miss
        contradiction
      · simp
    rw [if_neg down]
    cases s.manager.route rt fallbackHash <;> rfl
  · refine ⟨s.affinity, ?_⟩
    cases s.manager.route rt fallbackHash <;> rfl

theorem routeStatefulAnswers (rt : Runtime) {s : StickyManager F} {now : Int} {sessionKey : Bytes}
    {fallbackHash : UInt32} {out : StickyManager F × Except RouteError (UInt32 × Bool)}
    (routed : s.routeStateful rt now sessionKey fallbackHash = .ok out) :
    (∃ id, s.honoured now sessionKey = some id ∧ out = (s, .ok (id, true))) ∨
      s.honoured now sessionKey = none ∧ ∃ first, s.manager.route rt fallbackHash = .ok first ∧
        out.1.manager = first.1 ∧ out.2 = first.2.map fun id => (id, false) := by
  cases known : s.honoured now sessionKey with
  | some id =>
    rw [routeStatefulHit rt known] at routed
    exact .inl ⟨id, rfl, (Except.ok.inj routed).symm⟩
  | none =>
    obtain ⟨affinity, miss⟩ := routeStatefulMiss rt known fallbackHash
    rw [miss] at routed
    cases inner : s.manager.route rt fallbackHash with
    | error p =>
      rw [inner] at routed
      contradiction
    | ok first =>
      rw [inner] at routed
      cases routed
      exact .inr ⟨rfl, first, rfl, rfl, rfl⟩

/-! ### Runs -/

inductive StickyOp (F : Type) where
  | manager (op : Op F)
  | routeStateful (now : Int) (sessionKey : Bytes) (fallbackHash : UInt32)
  | register (now : Int) (sessionKey : Bytes) (backendID : UInt32)
  | expire (sessionKey : Bytes)
  | gc (now : Int)

def StickyManager.apply (rt : Runtime) (s : StickyManager F) : StickyOp F → Go (StickyManager F)
  | .manager op => do return { s with manager := ← s.manager.apply rt op }
  | .routeStateful now sessionKey fallbackHash => do
    return (← s.routeStateful rt now sessionKey fallbackHash).1
  | .register now sessionKey backendID =>
    .ok { s with affinity := s.affinity.register now sessionKey backendID }
  | .expire sessionKey => .ok { s with affinity := s.affinity.expire sessionKey }
  | .gc now => .ok { s with affinity := (s.affinity.gc now).1 }

def StickyStep (s : StickyManager F) (op : Runtime × StickyOp F) (next : StickyManager F) : Prop :=
  s.apply op.1 op.2 = .ok next

theorem routeStatefulSound (rt : Runtime) {s : StickyManager F} (sound : Sound s.manager) {now : Int}
    {sessionKey : Bytes} {fallbackHash : UInt32}
    {out : StickyManager F × Except RouteError (UInt32 × Bool)}
    (routed : s.routeStateful rt now sessionKey fallbackHash = .ok out) : Sound out.1.manager := by
  rcases routeStatefulAnswers rt routed with ⟨id, _, same⟩ | ⟨_, first, inner, same, _⟩
  · rw [same]
    exact sound
  · rw [same]
    exact routeSound rt sound inner

theorem stickySound {cfg : RingConfig F} {ops s} (run : Run StickyStep (newStickyManager cfg) ops s) :
    Sound s.manager := by
  have preserved : ∀ (s : StickyManager F) op t, Sound s.manager → StickyStep s op t → Sound t.manager := by
    intro s op t sound taken
    obtain ⟨rt, op⟩ := op
    cases op with
    | manager op =>
      simp only [StickyStep, StickyManager.apply, bind, Except.bind] at taken
      split at taken <;> try contradiction
      rename_i applied
      cases taken
      exact applySound rt sound applied
    | routeStateful now sessionKey fallbackHash =>
      simp only [StickyStep, StickyManager.apply, bind, Except.bind] at taken
      split at taken <;> try contradiction
      rename_i routed
      cases taken
      exact routeStatefulSound rt sound routed
    | register now sessionKey backendID => cases taken; exact sound
    | expire sessionKey => cases taken; exact sound
    | gc now => cases taken; exact sound
  exact StepRun.runInvariant preserved run (newManagerSound cfg)

/-! ### Who gets a new request -/

def Eligible (m : Manager F) (id : UInt32) : Prop :=
  ∃ b, m.backendInfo id = some b ∧ b.health = true ∧ b.draining = false

/-- Neither entry point returns a backend that is unregistered, unhealthy or draining. -/
def OnlyEligible (rt : Runtime) (s : StickyManager F) (now : Int) (sessionKey : Bytes) (key : UInt32) :
    Prop :=
  (∀ next id, s.manager.route rt key = .ok (next, .ok id) → Eligible s.manager id) ∧
  ∀ next id hit, s.routeStateful rt now sessionKey key = .ok (next, .ok (id, hit)) →
    Eligible s.manager id

/-- The session has an entry in time, and its backend is healthy but draining. -/
def PinnedToDraining (s : StickyManager F) (now : Int) (sessionKey : Bytes) : Prop :=
  ∃ id b, s.affinity.route now sessionKey = some id ∧ s.manager.backendInfo id = some b ∧
    b.health = true ∧ b.draining = true

theorem routeEligible (rt : Runtime) {m : Manager F} (sound : Sound m) {key : UInt32}
    {next : Manager F} {id : UInt32} (routed : m.route rt key = .ok (next, .ok id)) : Eligible m id := by
  rcases routeAnswers rt sound routed with ⟨_, failed⟩ | ⟨_, b, found, _, eligible, _, answer, _⟩
  · cases congrArg Prod.snd failed
  · cases answer
    exact ⟨b, found, by simpa [Backend.eligible] using eligible⟩

theorem onlyEligibleExact {cfg : RingConfig F} {ops s}
    (run : Run StickyStep (newStickyManager cfg) ops s) (rt : Runtime) (now : Int) (sessionKey : Bytes)
    (key : UInt32) :
    OnlyEligible rt s now sessionKey key ↔ ¬ PinnedToDraining s now sessionKey := by
  have sound := stickySound run
  constructor
  · rintro ⟨_, stateful⟩ ⟨id, b, pinned, found, healthy, draining⟩
    have hit := honouredExact.mpr ⟨pinned, b, found, healthy⟩
    obtain ⟨c, again, _, staying⟩ := stateful _ id true (routeStatefulHit rt hit key)
    cases found.symm.trans again
    rw [draining] at staying
    contradiction
  · intro unpinned
    refine ⟨fun next id routed => routeEligible rt sound routed, fun next id hit routed => ?_⟩
    rcases routeStatefulAnswers rt routed with ⟨pinned, known, same⟩ | ⟨_, first, inner, _, answer⟩
    · cases same
      obtain ⟨entry, b, found, healthy⟩ := honouredExact.mp known
      refine ⟨b, found, healthy, ?_⟩
      by_contra draining
      exact unpinned ⟨id, b, entry, found, healthy, by simpa using draining⟩
    · obtain ⟨m, chosen⟩ := first
      cases chosen with
      | error e => cases answer
      | ok backend =>
        cases answer
        exact routeEligible rt sound inner

/-! ### A pinned session of a draining backend -/

def pinnedSession : List (Runtime × StickyOp ℚ) :=
  [(.plain, .manager (.addBackend { id := 1, health := true })),
    (.plain, .register 0 (ascii "s") 1)]

def pinnedServers : StickyManager ℚ where
  manager := (newManager (load {})).addBackend .plain { id := 1, health := true }
  affinity := (newAffinityTable 0 0).register 0 (ascii "s") 1

theorem pinnedRun : Run StickyStep (newStickyManager (load {})) pinnedSession pinnedServers :=
  .cons rfl (.cons rfl (.nil _))

theorem pinnedServersEligible : OnlyEligible .plain pinnedServers 60 (ascii "s") 42 := by
  refine (onlyEligibleExact pinnedRun .plain 60 (ascii "s") 42).mpr ?_
  rintro ⟨id, b, _, found, _, draining⟩
  have found := (addBackendLookups .plain (newManager (load {})) _ id).symm.trans found
  split at found
  · cases found
    contradiction
  · simp [newManager] at found

def drainedServers : StickyManager ℚ :=
  { pinnedServers with manager := (pinnedServers.manager.setDraining .plain 1 true).1 }

theorem drainedSessionRouted : Run StickyStep (newStickyManager (load {}))
      (pinnedSession ++ [(.plain, .manager (.setDraining 1 true))]) drainedServers ∧
    ¬ OnlyEligible .plain drainedServers 60 (ascii "s") 42 := by
  refine ⟨StepRun.runSnoc pinnedRun rfl, ?_⟩
  have found : drainedServers.manager.backends.lookup 1 =
      some { id := 1, vnodeCount := 150, health := true, draining := true } := by decide +kernel
  have pinned : drainedServers.affinity.route 60 (ascii "s") = some 1 := by decide +kernel
  have hit : drainedServers.honoured 60 (ascii "s") = some 1 :=
    honouredExact.mpr ⟨pinned, _, found, rfl⟩
  rintro ⟨_, stateful⟩
  obtain ⟨b, again, _, staying⟩ := stateful _ 1 true (routeStatefulHit .plain hit 42)
  cases found.symm.trans again
  contradiction

end OmegaLb.Affinity
