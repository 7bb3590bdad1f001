import OmegaLb.SessionRace

/-! Once registered, a session stays with its backend: which schedules of lookups, Registers and
expiries keep that promise of the affinity table. -/
namespace OmegaLb.SessionPins
open GoText (Bytes ascii)
open RingManager RingInvariant RingReference
open Affinity SessionRace
open StepRun (Run Guarded Along Does)
open Config (RingConfig load)

variable {F : Type}

/-- `inForce` keeps book of the registrations the table has to honour: from the first Register
that takes effect until the TTL, a logout or the failure of the backend. -/
structure Watched (F : Type) where
  world : World F
  inForce : Bytes → Option AffinityRecord

def alive (w : World F) (rec : AffinityRecord) : Bool := !w.late rec && w.healthy rec.backendID

def noted (p : Watched F) (e : Event F) (key : Bytes) : Option AffinityRecord :=
  match e with
  | .expire sessionKey => if key = sessionKey then none else p.inForce key
  | .proceed i =>
    match p.world.requests[i]? with
    | some ⟨sessionKey, _, .routed backendID⟩ =>
      if key = sessionKey ∧ Accepts p.world.sticky.affinity key ∧ p.inForce key = none then
        some ⟨backendID, p.world.clock⟩
      else p.inForce key
    | _ => p.inForce key
  | _ => p.inForce key

/-- Every registration in force is the table's entry, and a lookup now returns its backend. -/
def Kept (p : Watched F) : Prop :=
  ∀ key rec, p.inForce key = some rec → p.world.entry key = some rec ∧
    p.world.sticky.honoured p.world.clock key = some rec.backendID

/-- No Register takes effect over a registration in force, and no expiry that an earlier entry
triggered runs while one is. -/
def SparesPins (p : Watched F) (e : Runtime × Event F) : Prop :=
  match e.2 with
  | .proceed i => ∀ r, p.world.requests[i]? = some r →
    match r.phase with
    | .routed backendID => Accepts p.world.sticky.affinity r.sessionKey →
        ∀ rec, p.inForce r.sessionKey = some rec → rec = ⟨backendID, p.world.clock⟩
    | .down _ => p.inForce r.sessionKey = none
    | _ => True
  | .lazyExpire j => ∀ x, p.world.expiries[j]? = some x → p.inForce x.1 = none
  | _ => True

structure Known (p : Watched F) : Prop where
  named : ∀ key rec, p.inForce key = some rec → key ≠ []
  alive : ∀ key rec, p.inForce key = some rec → alive p.world rec = true

def Held (p : Watched F) : Prop := ∀ key rec, p.inForce key = some rec → p.world.entry key = some rec

theorem aliveHonoured {w : World F} {key : Bytes} {rec : AffinityRecord} (named : key ≠ [])
    (found : w.entry key = some rec) (living : alive w rec = true) :
    w.sticky.honoured w.clock key = some rec.backendID := by
  simp only [alive, Bool.and_eq_true, Bool.not_eq_true'] at living
  obtain ⟨inTime, healthy⟩ := living
  refine honouredExact.mpr ⟨?_, ?_⟩
  · unfold World.entry at found
    have early : w.sticky.affinity.late w.clock rec = false := inTime
    simp only [AffinityTable.route, if_neg named, found, early, Bool.false_eq_true, if_false]
  · unfold World.healthy at healthy
    split at healthy <;> try contradiction
    exact ⟨_, ‹_›, healthy⟩

theorem keptHeld {p : Watched F} (known : Known p) : Kept p ↔ Held p := by
  constructor
  · exact fun kept key rec promised => (kept key rec promised).1
  · intro held key rec promised
    have found := held key rec promised
    exact ⟨found, aliveHonoured (known.named key rec promised) found (known.alive key rec promised)⟩

def Registers (p : Watched F) (e : Event F) (key : Bytes) (rec : AffinityRecord) : Prop :=
  ∃ (i : Nat) (r : Request), e = .proceed i ∧ p.world.requests[i]? = some r ∧
    r.phase = .routed rec.backendID ∧ r.sessionKey = key ∧ rec.createdAt = p.world.clock ∧
    Accepts p.world.sticky.affinity key

theorem notedCases {p : Watched F} {e : Event F} {key : Bytes} {rec : AffinityRecord}
    (promised : noted p e key = some rec) : p.inForce key = some rec ∨ Registers p e key rec := by
  cases e with
  | expire sessionKey =>
    simp only [noted] at promised
    split at promised
    · contradiction
    · exact .inl promised
  | proceed i =>
    simp only [noted] at promised
    split at promised
    · rename_i sessionKey fallbackHash backendID here
      split at promised
      · rename_i fresh
        cases promised
        exact .inr ⟨i, _, rfl, here, rfl, fresh.1.symm, rfl, fresh.2.1⟩
      · exact .inl promised
    · exact .inl promised
  | _ => exact .inl promised

theorem notedProceed {p : Watched F} (i : Nat) {key : Bytes} {rec : AffinityRecord}
    (promised : p.inForce key = some rec) : noted p (.proceed i) key = some rec := by
  simp only [noted]
  split
  · rw [if_neg, promised]
    rintro ⟨_, _, fresh⟩
    rw [promised] at fresh
    contradiction
  · exact promised

variable [GoFloat F]

def watch (p : Watched F) (e : Runtime × Event F) : Option (Watched F) :=
  (exec p.world e).map fun next => ⟨next, fun key => (noted p e.2 key).filter (alive next)⟩

def watchFrom (cfg : RingConfig F) (ttl maxSize clock : Int) : Watched F :=
  ⟨start cfg ttl maxSize clock, fun _ => none⟩

theorem watchKnown {p q : Watched F} {e : Runtime × Event F} (taken : watch p e = some q)
    (known : Known p) : Known q := by
  obtain ⟨next, _, same⟩ := Option.map_eq_some_iff.mp taken
  cases same
  refine ⟨fun key rec promised => ?_, fun key rec promised => (Option.filter_eq_some_iff.mp promised).2⟩
  rcases notedCases (Option.filter_eq_some_iff.mp promised).1 with before | ⟨_, _, _, _, _, _, _, accepted⟩
  · exact known.named key rec before
  · exact accepted.1

/-- What was promised before is still there, unless the step takes it off. -/
theorem promiseKept {p : Watched F} {e : Runtime × Event F} {next : World F} (known : Known p)
    (held : Held p) (taken : exec p.world e = some next) (spares : SparesPins p e) {key : Bytes}
    {rec : AffinityRecord} (promised : noted p e.2 key = some rec) (before : p.inForce key = some rec) :
    next.entry key = some rec := by
  have found := held key rec before
  cases execTaken taken with
  | @proceed rt i r next here step =>
    have condition := spares r here
    cases step with
    | drops dropped down =>
      rw [down] at condition
      have other : key ≠ r.sessionKey := by
        intro own
        rw [own, condition] at before
        contradiction
      exact expireKeyOther other found
    | registers backendID routed =>
      rw [routed] at condition
      refine (registerLookup p.world.sticky.affinity p.world.clock r.sessionKey backendID key).trans ?_
      split
      · rename_i written
        rw [condition written.1 rec (written.2 ▸ before)]
      · exact found
    | _ => exact found
  | @lazyExpire rt j x there =>
    have other : key ≠ x.1 := by
      intro own
      rw [own, spares x there] at before
      contradiction
    exact expireKeyOther other found
  | expire rt sessionKey =>
    have other : key ≠ sessionKey := by
      intro own
      simp only [noted, if_pos own] at promised
      contradiction
    exact expireKeyOther other found
  | gc rt =>
    have living := known.alive key rec before
    simp only [alive, Bool.and_eq_true] at living
    exact (gcLookup p.world.sticky.affinity p.world.clock key).trans
      (Option.filter_eq_some_iff.mpr ⟨found, living.1⟩)
  | _ => exact found

theorem registeredLookup {w next : World F} {rt : Runtime} {i : Nat} {r : Request} {backendID : UInt32}
    (taken : exec w (rt, .proceed i) = some next) (here : w.requests[i]? = some r)
    (routed : r.phase = .routed backendID) (key : Bytes) : next.entry key =
      (w.sticky.affinity.register w.clock r.sessionKey backendID).sessions.lookup key := by
  cases execTaken taken with
  | proceed again step =>
    cases here.symm.trans again
    cases step with
    | registers backendID there =>
      rw [routed] at there
      cases there
      rfl
    | _ => simp_all only [reduceCtorEq]

theorem sparesHeld {p : Watched F} {e : Runtime × Event F} {next : World F} (known : Known p)
    (held : Held p) (taken : exec p.world e = some next) (spares : SparesPins p e) {key : Bytes}
    {rec : AffinityRecord} (promised : noted p e.2 key = some rec) : next.entry key = some rec := by
  rcases notedCases promised with before | ⟨i, r, event, here, routed, own, time, accepted⟩
  · exact promiseKept known held taken spares promised before
  · obtain ⟨rt, e⟩ := e
    subst event
    rw [registeredLookup taken here routed, registerLookup, if_pos ⟨own ▸ accepted, own.symm⟩, ← time]

omit [GoFloat F] in
theorem aliveRegister (w : World F) (sessionKey : Bytes) (backendID : UInt32) (rec : AffinityRecord) :
    alive { w with sticky.affinity := w.sticky.affinity.register w.clock sessionKey backendID } rec =
      alive w rec := by
  simp only [alive, World.late, AffinityTable.late, World.healthy, registerTtl]

theorem heldSpares {p : Watched F} {e : Runtime × Event F} {next : World F} (known : Known p)
    (taken : exec p.world e = some next)
    (after : ∀ key rec, noted p e.2 key = some rec → alive next rec = true →
      next.entry key = some rec) : SparesPins p e := by
  cases execTaken taken with
  | @proceed rt i r next here step =>
    intro q again
    cases here.symm.trans again
    have keeps : ∀ key rec, p.inForce key = some rec → alive next rec = true →
        next.entry key = some rec := fun key rec promised => after key rec (notedProceed i promised)
    cases step with
    | drops dropped down =>
      rw [down]
      refine Option.eq_none_iff_forall_ne_some.mpr fun rec promised => ?_
      have kept := keeps r.sessionKey rec promised (known.alive _ rec promised)
      cases (expireKeyGone p.world r.sessionKey).symm.trans kept
    | registers backendID routed =>
      rw [routed]
      intro accepted rec promised
      have living := (aliveRegister p.world r.sessionKey backendID rec).trans (known.alive _ rec promised)
      have written := (registerLookup p.world.sticky.affinity p.world.clock r.sessionKey backendID
        r.sessionKey).trans (if_pos ⟨accepted, rfl⟩)
      cases written.symm.trans (keeps r.sessionKey rec promised living)
      rfl
    | _ => simp_all only
  | @lazyExpire rt j x there =>
    intro y again
    cases there.symm.trans again
    refine Option.eq_none_iff_forall_ne_some.mpr fun rec promised => ?_
    have kept := after x.1 rec promised (known.alive _ rec promised)
    cases (expireKeyGone p.world x.1).symm.trans kept
  | _ => exact trivial

theorem watchExact {p q : Watched F} {e : Runtime × Event F} (known : Known p) (held : Held p)
    (taken : watch p e = some q) : Held q ↔ SparesPins p e := by
  obtain ⟨next, step, same⟩ := Option.map_eq_some_iff.mp taken
  cases same
  constructor
  · intro after
    exact heldSpares known step fun key rec promised living =>
      after key rec (Option.filter_eq_some_iff.mpr ⟨promised, living⟩)
  · intro spares key rec promised
    exact sparesHeld known held step spares (Option.filter_eq_some_iff.mp promised).1

theorem sessionPinsExact (cfg : RingConfig F) (ttl maxSize clock : Int) {es p} :
    Run (Along Kept (Does watch)) (watchFrom cfg ttl maxSize clock) es p ↔
      Run (Guarded SparesPins (Does watch)) (watchFrom cfg ttl maxSize clock) es p := by
  have known : ∀ (p : Watched F) e q, Known p → Does watch p e q → Known q :=
    fun _ _ _ known taken => watchKnown taken known
  have each : ∀ (p : Watched F) e q, Known p → Kept p → Does watch p e q → (Kept q ↔ SparesPins p e) := by
    intro p e q before kept taken
    rw [keptHeld (known p e q before taken)]
    exact watchExact before ((keptHeld before).mp kept) taken
  exact StepRun.alongGuarded known each ⟨nofun, nofun⟩ nofun

/-! ### Two first requests of one session -/

/-- Server 2 is drained while the first request is routed, server 1 while the second is. -/
def firstPick : Manager ℚ :=
  ((((newManager (load {})).addBackend .plain { id := 1, health := true }).addBackend .plain
    { id := 2, health := true }).setDraining .plain 2 true).1

def secondPick : Manager ℚ :=
  (((counted firstPick 1).setDraining .plain 2 false).1.setDraining .plain 1 true).1

theorem picksRoute : firstPick.route .plain 0 = .ok (counted firstPick 1, .ok 1) ∧
    secondPick.route .plain 0 = .ok (counted secondPick 2, .ok 2) := by
  have draining : ∀ {m : Manager ℚ} id (flag : Bool), Sound m → Sound (m.setDraining .plain id flag).1 :=
    fun id flag sound => setFieldSound .plain sound id (fun b => { b with draining := flag }) fun _ => rfl
  have first : Sound firstPick :=
    draining 2 true (addBackendSound .plain (addBackendSound .plain (newManagerSound _) _) _)
  have second : Sound secondPick := draining 1 true (draining 2 false (countedSound first 1))
  have turns : goRem (firstPick.reqCount + 1) firstPick.cfg.adjustEveryN = .ok 1 ∧
      goRem (secondPick.reqCount + 1) secondPick.cfg.adjustEveryN = .ok 2 := by decide +kernel
  exact ⟨soleRoutes .plain first (by decide +kernel) (by decide +kernel) turns.1 (by decide) 0,
    soleRoutes .plain second (by decide +kernel) (by decide +kernel) turns.2 (by decide) 0⟩

def bothMissed : World ℚ :=
  ⟨⟨firstPick, newAffinityTable 0 0⟩, 0, [⟨ascii "s", 0, .missed⟩, ⟨ascii "s", 0, .missed⟩], []⟩

def secondMissed : World ℚ :=
  ⟨⟨secondPick, newAffinityTable 0 0⟩, 0, [⟨ascii "s", 0, .routed 1⟩, ⟨ascii "s", 0, .missed⟩], []⟩

theorem watchRoutes {w next : World ℚ} (inForce : Bytes → Option AffinityRecord) {e : Runtime × Event ℚ}
    (taken : exec w e = some next) :
    watch ⟨w, inForce⟩ e = some ⟨next, fun key => (noted ⟨w, inForce⟩ e.2 key).filter (alive next)⟩ := by
  simp only [watch, taken, Option.map_some]

/-- Both lookups miss, the second Register replaces the first: session "s" moves from backend 1
to backend 2 although backend 1 is healthy. -/
theorem secondRegisterMoves :
    ∃ es p, Run (Does watch) (watchFrom (load {}) 0 0 0 : Watched ℚ) es p ∧ ¬ Kept p := by
  have lookups : Run (Does watch) (watchFrom (load {}) 0 0 0)
      [(.plain, .manager (.addBackend { id := 1, health := true })),
        (.plain, .manager (.addBackend { id := 2, health := true })),
        (.plain, .manager (.setDraining 2 true)), (.plain, .call (ascii "s") 0),
        (.plain, .call (ascii "s") 0), (.plain, .proceed 0), (.plain, .proceed 1),
        (.plain, .proceed 0), (.plain, .proceed 1)] ⟨bothMissed, fun _ => none⟩ :=
    .cons rfl (.cons rfl (.cons rfl (.cons rfl (.cons rfl (.cons rfl (.cons rfl (.cons rfl
      (.cons rfl (.nil _)))))))))
  have first : exec bothMissed (.plain, .proceed 0) =
      some ({ bothMissed with sticky.manager := counted firstPick 1 }.become 0 (.routed 1)) :=
    missedRoutes .plain (r := ⟨ascii "s", 0, .missed⟩) rfl rfl picksRoute.1
  have drains : Run (Does watch)
      ⟨{ bothMissed with sticky.manager := counted firstPick 1 }.become 0 (.routed 1), fun _ => none⟩
      [(.plain, .manager (.setDraining 2 false)), (.plain, .manager (.setDraining 1 true))]
      ⟨secondMissed, fun _ => none⟩ := .cons rfl (.cons rfl (.nil _))
  have second : exec secondMissed (.plain, .proceed 1) =
      some ({ secondMissed with sticky.manager := counted secondPick 2 }.become 1 (.routed 2)) :=
    missedRoutes .plain (r := ⟨ascii "s", 0, .missed⟩) rfl rfl picksRoute.2
  have registers : ∃ p, Run (Does watch)
      ⟨{ secondMissed with sticky.manager := counted secondPick 2 }.become 1 (.routed 2), fun _ => none⟩
      [(.plain, .proceed 0), (.plain, .proceed 1)] p ∧ p.inForce (ascii "s") = some ⟨1, 0⟩ ∧
        p.world.entry (ascii "s") = some ⟨2, 0⟩ :=
    ⟨_, .cons rfl (.cons rfl (.nil _)), by decide +kernel, by decide +kernel⟩
  obtain ⟨p, last, promised, moved⟩ := registers
  refine ⟨_, p, StepRun.runAppend lookups (.cons (watchRoutes _ first) (StepRun.runAppend drains
    (.cons (watchRoutes _ second) last))), fun kept => ?_⟩
  cases moved.symm.trans (kept _ _ promised).1

end OmegaLb.SessionPins
