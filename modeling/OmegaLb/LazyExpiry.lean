import OmegaLb.SessionRace

/-! Deletion by key, at some later time: which schedules let an expiry remove only the entry
that triggered it. -/
namespace OmegaLb.LazyExpiry
open GoText (Bytes ascii)
open RingManager RingInvariant RingReference
open Affinity SessionRace
open StepRun (Run Guarded Along Does)
open Config (RingConfig load)

variable {F : Type}

/-- An Expire of this key that this entry triggered is still to run: a goroutine started by
Route, or a RouteStateful past its health check. -/
def Outstanding (w : World F) (key : Bytes) (rec : AffinityRecord) : Prop :=
  (key, rec) ∈ w.expiries ∨
    ∃ (i : Nat) (r : Request), w.requests[i]? = some r ∧ r.sessionKey = key ∧ r.phase = .down rec

/-- Why an entry may leave the table: logout, its own TTL, its own backend's failure, or a later
Register of its session. -/
def Due (w : World F) (e : Runtime × Event F) (key : Bytes) (rec : AffinityRecord) : Prop :=
  match e.2 with
  | .expire sessionKey => sessionKey = key
  | .gc => w.late rec = true
  | .lazyExpire j => w.expiries[j]? = some (key, rec) ∧ w.late rec = true
  | .proceed i => ∃ r, w.requests[i]? = some r ∧ r.sessionKey = key ∧
      (r.phase = .down rec ∨ ∃ backendID, r.phase = .routed backendID)
  | _ => False

def OwnExpiry (w : World F) (e : Runtime × Event F) (next : World F) : Prop :=
  ∀ key rec, w.entry key = some rec → next.entry key = some rec ∨ Due w e key rec

/-- No entry but the triggering one is left under the key. -/
def StillHeld (w : World F) (key : Bytes) (rec : AffinityRecord) : Prop :=
  ∀ held, w.entry key = some held → held = rec

/-- A lookup that finds its entry late, or the backend down, finds that entry still in the table,
and no Register takes effect while an Expire of its key is outstanding. -/
def Undisturbed (w : World F) (e : Runtime × Event F) : Prop :=
  match e.2 with
  | .proceed i => ∀ r, w.requests[i]? = some r →
    match r.phase with
    | .looked (some rec) => w.late rec = true → StillHeld w r.sessionKey rec
    | .pinned rec => w.healthy rec.backendID = false → StillHeld w r.sessionKey rec
    | .routed backendID => Accepts w.sticky.affinity r.sessionKey →
        ∀ rec, Outstanding w r.sessionKey rec → rec = ⟨backendID, w.clock⟩
    | _ => True
  | _ => True

def Unthreatened (w : World F) : Prop := ∀ key rec, Outstanding w key rec → StillHeld w key rec

/-! ### Outstanding expiries -/

theorem outstandingBecome {w : World F} {i : Nat} {r : Request} (here : w.requests[i]? = some r)
    (phase : Phase) {key : Bytes} {rec : AffinityRecord} (after : Outstanding (w.become i phase) key rec) :
    Outstanding w key rec ∨ key = r.sessionKey ∧ phase = .down rec := by
  rcases after with goroutine | ⟨k, q, there, own, down⟩
  · exact .inl (.inl goroutine)
  · rw [becomeRequest] at there
    split at there
    · subst i
      rw [here] at there
      cases there
      exact .inr ⟨own.symm, down⟩
    · exact .inl (.inr ⟨k, q, there, own, down⟩)

theorem outstandingKept {w : World F} {i : Nat} {r : Request} (here : w.requests[i]? = some r)
    (phase : Phase) {key : Bytes} {rec : AffinityRecord} (before : Outstanding w key rec)
    (other : r.phase ≠ .down rec) : Outstanding (w.become i phase) key rec := by
  rcases before with goroutine | ⟨k, q, there, own, down⟩
  · exact .inl goroutine
  · refine .inr ⟨k, q, ?_, own, down⟩
    rw [becomeRequest, if_neg, there]
    intro same
    subst same
    rw [here] at there
    cases there
    exact other down

theorem unthreatenedFewer {w next : World F} (unthreatened : Unthreatened w)
    (entries : ∀ key rec, next.entry key = some rec → w.entry key = some rec)
    (expiries : ∀ key rec, Outstanding next key rec → Outstanding w key rec) : Unthreatened next :=
  fun key rec outstanding held found =>
    unthreatened key rec (expiries key rec outstanding) held (entries key held found)

theorem expireKeyFewer (w : World F) (sessionKey : Bytes) {key : Bytes} {rec : AffinityRecord}
    (found : (w.expireKey sessionKey).entry key = some rec) : w.entry key = some rec := by
  rw [expireKeyEntry] at found
  split at found
  · contradiction
  · exact found

theorem startsOutstanding {w : World F} {i : Nat} {r : Request} (here : w.requests[i]? = some r)
    {rec : AffinityRecord} (looked : r.phase = .looked (some rec)) (k : Bytes) (held : AffinityRecord) :
    Outstanding { w.become i .missed with expiries := w.expiries ++ [(r.sessionKey, rec)] } k held ↔
      Outstanding w k held ∨ (k = r.sessionKey ∧ held = rec) := by
  constructor
  · rintro (goroutine | request)
    · rcases List.mem_append.mp goroutine with old | new
      · exact .inl (.inl old)
      · cases List.mem_singleton.mp new
        exact .inr ⟨rfl, rfl⟩
    · rcases outstandingBecome here .missed (.inr request) with before | ⟨_, down⟩
      · exact .inl before
      · contradiction
  · rintro (before | ⟨same, value⟩)
    · rcases outstandingKept here .missed before (by simp [looked]) with old | request
      · exact .inl (List.mem_append_left _ old)
      · exact .inr request
    · subst same
      subst value
      exact .inl (List.mem_append_right _ (List.mem_singleton.mpr rfl))

theorem failsOutstanding {w : World F} {i : Nat} {r : Request} (here : w.requests[i]? = some r)
    {rec : AffinityRecord} (pinned : r.phase = .pinned rec) (k : Bytes) (held : AffinityRecord) :
    Outstanding (w.become i (.down rec)) k held ↔
      Outstanding w k held ∨ (k = r.sessionKey ∧ held = rec) := by
  constructor
  · intro after
    rcases outstandingBecome here _ after with before | ⟨same, down⟩
    · exact .inl before
    · cases down
      exact .inr ⟨same, rfl⟩
  · rintro (before | ⟨same, value⟩)
    · exact outstandingKept here _ before (by simp [pinned])
    · subst same
      subst value
      exact .inr ⟨i, { r with phase := .down held }, by simp [here], rfl, rfl⟩

theorem becomeUnthreatened {w v : World F} {i : Nat} {r : Request} (here : w.requests[i]? = some r)
    {phase : Phase} (quiet : ∀ rec, phase ≠ .down rec) (requests : v.requests = w.requests)
    (expiries : v.expiries = w.expiries) (entries : ∀ key rec, v.entry key = some rec →
      w.entry key = some rec) (unthreatened : Unthreatened w) : Unthreatened (v.become i phase) := by
  refine unthreatenedFewer unthreatened entries fun key rec outstanding => ?_
  have moved := outstandingBecome (requests ▸ here) phase outstanding
  rcases moved with before | ⟨_, down⟩
  · rcases before with goroutine | ⟨k, q, there, own, down⟩
    · exact .inl (expiries ▸ goroutine)
    · exact .inr ⟨k, q, requests ▸ there, own, down⟩
  · exact absurd down (quiet rec)

theorem startsExact (w next : World F) {key : Bytes} {rec : AffinityRecord}
    (expiries : ∀ k held, Outstanding next k held ↔ Outstanding w k held ∨ (k = key ∧ held = rec))
    (entries : ∀ k, next.entry k = w.entry k)
    (unthreatened : Unthreatened w) : Unthreatened next ↔ StillHeld w key rec := by
  constructor
  · intro after held found
    exact after key rec ((expiries key rec).mpr (.inr ⟨rfl, rfl⟩)) held ((entries key).trans found)
  · intro still k other outstanding held found
    rw [entries] at found
    rcases (expiries k other).mp outstanding with before | ⟨same, value⟩
    · exact unthreatened k other before held found
    · subst same
      subst value
      exact still held found

theorem registersExact {w : World F} {i : Nat} {r : Request} (here : w.requests[i]? = some r)
    {backendID : UInt32} (routed : r.phase = .routed backendID) (unthreatened : Unthreatened w) :
    Unthreatened ({ w with sticky.affinity :=
        w.sticky.affinity.register w.clock r.sessionKey backendID }.become i .done) ↔
      (Accepts w.sticky.affinity r.sessionKey →
        ∀ rec, Outstanding w r.sessionKey rec → rec = ⟨backendID, w.clock⟩) := by
  have entries := registerLookup w.sticky.affinity w.clock r.sessionKey backendID
  constructor
  · intro after accepted rec outstanding
    have kept := outstandingKept here .done outstanding (by simp [routed])
    refine (after r.sessionKey rec kept ⟨backendID, w.clock⟩ ?_).symm
    exact (entries r.sessionKey).trans (if_pos ⟨accepted, rfl⟩)
  · intro condition key rec outstanding held found
    have before : Outstanding w key rec := by
      rcases outstandingBecome here .done outstanding with before | ⟨_, down⟩
      · exact before
      · contradiction
    have found := (entries key).symm.trans found
    split at found
    · rename_i written
      cases found
      obtain ⟨accepted, same⟩ := written
      subst same
      exact (condition accepted rec before).symm
    · exact unthreatened key rec before held found

variable [GoFloat F]

omit [GoFloat F] in
/-- What the request in question has ahead of it decides whether it is disturbed. -/
theorem undisturbedHere {rt : Runtime} {w : World F} {i : Nat} {r : Request} (here : w.requests[i]? = some r) :
    Undisturbed w (rt, .proceed i) ↔ match r.phase with
      | .looked (some rec) => w.late rec = true → StillHeld w r.sessionKey rec
      | .pinned rec => w.healthy rec.backendID = false → StillHeld w r.sessionKey rec
      | .routed backendID => Accepts w.sticky.affinity r.sessionKey →
          ∀ rec, Outstanding w r.sessionKey rec → rec = ⟨backendID, w.clock⟩
      | _ => True := by
  constructor
  · exact fun undisturbed => undisturbed r here
  · intro condition q there
    rw [here] at there
    cases there
    exact condition

theorem proceedExact {rt : Runtime} {w next : World F} {i : Nat} {r : Request}
    (here : w.requests[i]? = some r) (taken : Proceeds rt w i r next) (unthreatened : Unthreatened w) :
    Unthreatened next ↔ Undisturbed w (rt, .proceed i) := by
  rw [undisturbedHere here]
  have quiet : ∀ {v : World F} {phase : Phase}, (∀ rec, phase ≠ .down rec) →
      v.requests = w.requests → v.expiries = w.expiries →
      (∀ key rec, v.entry key = some rec → w.entry key = some rec) → Unthreatened (v.become i phase) :=
    fun other requests expiries entries =>
      becomeUnthreatened here other requests expiries entries unthreatened
  cases taken with
  | reads called =>
    rw [called]
    exact iff_of_true (quiet nofun rfl rfl fun _ _ found => found) trivial
  | absent looked =>
    rw [looked]
    exact iff_of_true (quiet nofun rfl rfl fun _ _ found => found) trivial
  | finds rec looked inTime =>
    rw [looked]
    refine iff_of_true (quiet nofun rfl rfl fun _ _ found => found) fun late => ?_
    rw [inTime] at late
    contradiction
  | starts rec looked late =>
    rw [looked]
    have exactly_ := startsExact w _ (startsOutstanding here looked) (fun _ => rfl) unthreatened
    exact exactly_.trans ⟨fun still _ => still, fun still => still late⟩
  | hits rec pinned healthy =>
    rw [pinned]
    refine iff_of_true (quiet nofun rfl rfl fun _ _ found => found) fun unhealthy => ?_
    rw [healthy] at unhealthy
    contradiction
  | fails rec pinned unhealthy =>
    rw [pinned]
    have exactly_ := startsExact w _ (failsOutstanding here pinned) (fun _ => rfl) unthreatened
    exact exactly_.trans ⟨fun still _ => still, fun still => still unhealthy⟩
  | drops rec down =>
    rw [down]
    exact iff_of_true (quiet nofun rfl rfl fun key _ => expireKeyFewer w r.sessionKey) trivial
  | routes m backendID missed answer =>
    rw [missed]
    exact iff_of_true (quiet nofun rfl rfl fun _ _ found => found) trivial
  | unrouted m err missed answer =>
    rw [missed]
    exact iff_of_true (quiet nofun rfl rfl fun _ _ found => found) trivial
  | registers backendID routed =>
    rw [routed]
    exact registersExact here routed unthreatened

theorem execExact {w next : World F} {e : Runtime × Event F} (taken : exec w e = some next)
    (unthreatened : Unthreatened w) : Unthreatened next ↔ Undisturbed w e := by
  cases execTaken taken with
  | manager applied => exact iff_of_true unthreatened trivial
  | pass later => exact iff_of_true unthreatened trivial
  | call rt sessionKey fallbackHash =>
    refine iff_of_true (unthreatenedFewer unthreatened (fun _ _ found => found) ?_) trivial
    rintro key rec (goroutine | ⟨k, q, there, own, down⟩)
    · exact .inl goroutine
    · dsimp only at there
      rw [List.getElem?_append] at there
      split at there
      · exact .inr ⟨k, q, there, own, down⟩
      · have last := List.mem_of_getElem? there
        cases List.mem_singleton.mp last
        contradiction
  | proceed here step => exact proceedExact here step unthreatened
  | @lazyExpire rt j x there =>
    refine iff_of_true (unthreatenedFewer unthreatened (fun key rec => expireKeyFewer w x.1) ?_) trivial
    rintro key rec (goroutine | request)
    · exact .inl (List.mem_of_mem_eraseIdx goroutine)
    · exact .inr request
  | expire rt sessionKey =>
    exact iff_of_true (unthreatenedFewer unthreatened (fun key rec => expireKeyFewer w sessionKey)
      fun _ _ outstanding => outstanding) trivial
  | gc rt =>
    refine iff_of_true (unthreatenedFewer unthreatened (fun key rec found => ?_)
      fun _ _ outstanding => outstanding) trivial
    have swept := (gcLookup w.sticky.affinity w.clock key).symm.trans found
    exact (Option.filter_eq_some_iff.mp swept).1

/-! ### What may be deleted next -/

/-- Whichever access comes next, an entry that leaves the table is due. -/
def Safe (w : World F) : Prop := ∀ e next, exec w e = some next → OwnExpiry w e next

def LateExpiries (w : World F) : Prop := ∀ x ∈ w.expiries, w.late x.2 = true

theorem proceedOwn {rt : Runtime} {w next : World F} {i : Nat} {r : Request}
    (here : w.requests[i]? = some r) (taken : Proceeds rt w i r next) (unthreatened : Unthreatened w)
    {key : Bytes} {held : AffinityRecord} (found : w.entry key = some held) :
    next.entry key = some held ∨ Due w (rt, .proceed i) key held := by
  cases taken with
  | drops rec down =>
    by_cases own : key = r.sessionKey
    · subst own
      cases unthreatened r.sessionKey rec (.inr ⟨i, r, here, rfl, down⟩) held found
      exact .inr ⟨r, here, rfl, .inl down⟩
    · exact .inl (expireKeyOther own found)
  | registers backendID routed =>
    by_cases own : key = r.sessionKey
    · exact .inr ⟨r, here, own.symm, .inr ⟨backendID, routed⟩⟩
    · refine .inl ((registerLookup w.sticky.affinity w.clock r.sessionKey backendID key).trans ?_)
      rw [if_neg fun written => own written.2]
      exact found
  | _ => exact .inl found

theorem safeUnthreatened {w : World F} (safe : Safe w) : Unthreatened w := by
  intro key rec outstanding held found
  rcases outstanding with goroutine | ⟨i, r, here, own, down⟩
  · obtain ⟨j, there⟩ := List.mem_iff_getElem?.mp goroutine
    have taken : exec w (.plain, .lazyExpire j) =
        some { w.expireKey key with expiries := w.expiries.eraseIdx j } := by
      simp only [exec, there, Option.map_some]
    rcases safe _ _ taken key held found with kept | ⟨triggered, _⟩
    · cases (expireKeyGone w key).symm.trans kept
    · rw [there] at triggered
      cases triggered
      rfl
  · have taken : exec w (.plain, .proceed i) = some ((w.expireKey r.sessionKey).become i .missed) :=
      proceedFirst .plain here (by simp only [World.proceed, down])
    subst own
    rcases safe _ _ taken r.sessionKey held found with kept | ⟨q, again, _, reason⟩
    · cases (expireKeyGone w r.sessionKey).symm.trans kept
    · rw [here] at again
      cases again
      rcases reason with same | ⟨backendID, routed⟩
      · rw [down] at same
        cases same
        rfl
      · rw [down] at routed
        contradiction

theorem unthreatenedSafe {w : World F} (late : LateExpiries w) (unthreatened : Unthreatened w) :
    Safe w := by
  intro e next taken key held found
  cases execTaken taken with
  | proceed here step => exact proceedOwn here step unthreatened found
  | @lazyExpire rt j x there =>
    by_cases own : key = x.1
    · subst own
      have triggered := List.mem_of_getElem? there
      cases unthreatened x.1 x.2 (.inl triggered) held found
      exact .inr ⟨there, late x triggered⟩
    · exact .inl (expireKeyOther own found)
  | expire rt sessionKey =>
    by_cases own : key = sessionKey
    · exact .inr own.symm
    · exact .inl (expireKeyOther own found)
  | gc rt =>
    cases due : w.late held with
    | true => exact .inr due
    | false =>
      refine .inl ((gcLookup w.sticky.affinity w.clock key).trans ?_)
      have found : w.sticky.affinity.sessions.lookup key = some held := found
      have kept : w.sticky.affinity.late w.clock held = false := due
      rw [found, Option.filter_some, kept]
      rfl
  | _ => exact .inl found

theorem safeExact {w : World F} (late : LateExpiries w) : Safe w ↔ Unthreatened w :=
  ⟨safeUnthreatened, unthreatenedSafe late⟩

theorem lateKept {w next : World F} {e : Runtime × Event F} (taken : exec w e = some next)
    (late : LateExpiries w) : LateExpiries next := by
  have kept : ∀ x ∈ w.expiries, next.late x.2 = true := fun x inside => execLate taken (late x inside)
  intro x inside
  cases execTaken taken with
  | proceed here step =>
    cases step with
    | starts rec looked now =>
      rcases List.mem_append.mp inside with old | new
      · exact kept x old
      · cases List.mem_singleton.mp new
        exact now
    | _ => exact kept x inside
  | lazyExpire there => exact kept x (List.mem_of_mem_eraseIdx inside)
  | _ => exact kept x inside

theorem lazyExpiryExact (cfg : RingConfig F) (ttl maxSize clock : Int) {es w} :
    Run (Along Safe (Does exec)) (start cfg ttl maxSize clock) es w ↔
      Run (Guarded Undisturbed (Does exec)) (start cfg ttl maxSize clock) es w := by
  have kept : ∀ (s : World F) e t, LateExpiries s → Does exec s e t → LateExpiries t :=
    fun _ _ _ late taken => lateKept taken late
  have each : ∀ (s : World F) e t, LateExpiries s → Safe s → Does exec s e t →
      (Safe t ↔ Undisturbed s e) := by
    intro s e t late safe taken
    rw [safeExact (kept s e t late taken)]
    exact execExact taken ((safeExact late).mp safe)
  have first : LateExpiries (start cfg ttl maxSize clock) := nofun
  refine StepRun.alongGuarded kept each first ((safeExact first).mpr ?_)
  rintro key rec (goroutine | ⟨i, r, there, _⟩) <;> contradiction

/-! ### A session that comes back after its TTL -/

def loneServer : Manager ℚ := (newManager (load {})).addBackend .plain { id := 1, health := true }

theorem loneRoutes (key : UInt32) : loneServer.route .plain key = .ok (counted loneServer 1, .ok 1) ∧
    (counted loneServer 1).route .plain key = .ok (counted (counted loneServer 1) 1, .ok 1) := by
  have sound : Sound loneServer := addBackendSound .plain (newManagerSound _) _
  have first : goRem (loneServer.reqCount + 1) loneServer.cfg.adjustEveryN = .ok 1 := by decide +kernel
  have second : goRem ((counted loneServer 1).reqCount + 1) (counted loneServer 1).cfg.adjustEveryN =
      .ok 2 := by decide +kernel
  exact ⟨soleRoutes .plain sound (by decide +kernel) (by decide +kernel) first (by decide) key,
    soleRoutes .plain (countedSound sound 1) (by decide +kernel) (by decide +kernel) second (by decide) key⟩

def sessionTable : AffinityTable := (newAffinityTable 0 0).register 0 (ascii "s") 1

def firstMiss : World ℚ :=
  ⟨⟨loneServer, newAffinityTable 0 0⟩, 0, [⟨ascii "s", 0, .missed⟩], []⟩

/-- Half an hour after its Register the session comes back and finds its entry late. -/
def secondMiss : World ℚ where
  sticky := ⟨counted loneServer 1, sessionTable⟩
  clock := 1800000000001
  requests := [⟨ascii "s", 0, .done⟩, ⟨ascii "s", 0, .missed⟩]
  expiries := [(ascii "s", ⟨1, 0⟩)]

def renewed : World ℚ where
  sticky := ⟨counted (counted loneServer 1) 1, sessionTable.register 1800000000001 (ascii "s") 1⟩
  clock := 1800000000001
  requests := [⟨ascii "s", 0, .done⟩, ⟨ascii "s", 0, .done⟩]
  expiries := [(ascii "s", ⟨1, 0⟩)]

theorem renewedReached : ∃ es, Run (Does exec) (start (load {}) 0 0 0) es renewed := by
  have missed : Run (Does exec) (start (load {}) 0 0 0)
      [(.plain, .manager (.addBackend { id := 1, health := true })), (.plain, .call (ascii "s") 0),
        (.plain, .proceed 0), (.plain, .proceed 0)] firstMiss :=
    .cons rfl (.cons rfl (.cons rfl (.cons rfl (.nil _))))
  have routed : exec firstMiss (.plain, .proceed 0) =
      some ({ firstMiss with sticky.manager := counted loneServer 1 }.become 0 (.routed 1)) :=
    missedRoutes .plain (r := ⟨ascii "s", 0, .missed⟩) rfl rfl (loneRoutes 0).1
  have again : Run (Does exec)
      ({ firstMiss with sticky.manager := counted loneServer 1 }.become 0 (.routed 1))
      [(.plain, .proceed 0), (.plain, .pass 1800000000001), (.plain, .call (ascii "s") 0),
        (.plain, .proceed 1), (.plain, .proceed 1)] secondMiss :=
    .cons rfl (.cons rfl (.cons rfl (.cons rfl (.cons rfl (.nil _)))))
  have reroutes : exec secondMiss (.plain, .proceed 1) =
      some ({ secondMiss with sticky.manager := counted (counted loneServer 1) 1 }.become 1 (.routed 1)) :=
    missedRoutes .plain (r := ⟨ascii "s", 0, .missed⟩) rfl rfl (loneRoutes 0).2
  have registers : exec
      ({ secondMiss with sticky.manager := counted (counted loneServer 1) 1 }.become 1 (.routed 1))
      (.plain, .proceed 1) = some renewed := rfl
  exact ⟨_, StepRun.runAppend missed (.cons routed (StepRun.runAppend again
    (.cons reroutes (.cons registers (.nil _)))))⟩

/-- The goroutine started by the lookup that missed runs after the Register that followed it. -/
theorem renewedSessionDeleted : (∃ es, Run (Does exec) (start (load {}) 0 0 0) es renewed) ∧
    ∃ next, exec renewed (.plain, .lazyExpire 0) = some next ∧
      ¬ OwnExpiry renewed (.plain, .lazyExpire 0) next := by
  refine ⟨renewedReached, _, rfl, fun own => ?_⟩
  have found : renewed.entry (ascii "s") = some ⟨1, 1800000000001⟩ := by decide +kernel
  rcases own _ _ found with kept | ⟨triggered, _⟩
  · contradiction
  · contradiction

end OmegaLb.LazyExpiry
