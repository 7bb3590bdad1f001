import Mathlib.Data.List.Induction
import OmegaLb.Coordinator

/-! A follower after any sequence of byte strings. A newer snapshot replaces the records of
the backends it lists, in-flight counts and draining marks included, and leaves the others
registered, so the follower mirrors the newest snapshot exactly when nothing it has
registered is missing from it and nothing was in flight or draining. -/
namespace OmegaLb.FollowerConvergence
open GoText (Bytes)
open RingManager RingInvariant
open Consensus
open RingSnapshot (BackendSnapshot RingStateSnapshot marshal unmarshal unmarshalMarshal)

variable {F : Type}

/-! ### Sequences of calls -/

abbrev Call := (Nat → Runtime) × Bytes

def applyAll (start : Coordinator F) (calls : List Call) : Coordinator F :=
  calls.foldl (fun c call => (c.applySnapshot call.1 call.2).1) start

def received (calls : List Call) : List RingStateSnapshot :=
  calls.filterMap fun call => unmarshal call.2

def newest (last : Int64) (snaps : List RingStateSnapshot) : Option RingStateSnapshot :=
  snaps.find? fun s => last < s.version ∧ ∀ t ∈ snaps, t.version ≤ s.version

/-! ### The property -/

structure Matches (b : Backend) (bs : BackendSnapshot) : Prop where
  ip : b.ip = bs.ip
  port : b.port = bs.port
  capacityMax : b.capacityMax = bs.capacityMax.toInt
  vnodeCount : b.vnodeCount = clampCount bs.vnodeCount.toInt
  health : b.health = bs.health
  stateful : b.stateful = bs.stateful

def Mirrors (m : Manager F) (snap : RingStateSnapshot) : Prop :=
  ∀ id, match listing snap.backends id with
    | some bs => ∃ b, m.backendInfo id = some b ∧ Matches b bs
    | none => m.backendInfo id = none

def KeepsLocal (m next : Manager F) : Prop :=
  ∀ id b b', m.backendInfo id = some b → next.backendInfo id = some b' →
    b'.activeReqs = b.activeReqs ∧ b'.draining = b.draining

def Ignorable (c : Coordinator F) (data : Bytes) : Prop :=
  ∀ snap, unmarshal data = some snap → snap.version ≤ c.lastVersion

structure Converges (start : Coordinator F) (calls : List Call) : Prop where
  mirrors : ∀ snap, newest start.lastVersion (received calls) = some snap →
    Mirrors (applyAll start calls).ring snap
  nothingNew : newest start.lastVersion (received calls) = none → applyAll start calls = start
  ignored : ∀ before call, before ++ [call] <+: calls → Ignorable (applyAll start before) call.2 →
    applyAll start (before ++ [call]) = applyAll start before
  keepsLocal : ∀ before call, before ++ [call] <+: calls →
    KeepsLocal (applyAll start before).ring (applyAll start (before ++ [call])).ring

/-! ### The condition -/

def accepted : Int64 → List RingStateSnapshot → List RingStateSnapshot
  | _, [] => []
  | last, s :: rest => if last < s.version then s :: accepted s.version rest else accepted last rest

structure Idle (b : Backend) : Prop where
  activeReqs : b.activeReqs = 0
  draining : b.draining = false

def Lists (snap : RingStateSnapshot) (id : UInt32) : Prop := (listing snap.backends id).isSome = true

def Covered (start : Coordinator F) (calls : List Call) : Prop :=
  ∀ snap, newest start.lastVersion (received calls) = some snap →
    (∀ id b, start.ring.backendInfo id = some b → Idle b ∧ Lists snap id) ∧
      ∀ t ∈ accepted start.lastVersion (received calls), ∀ id, Lists t id → Lists snap id

/-! ### The newest snapshot is the last one accepted -/

theorem acceptedNone {last : Int64} {snaps : List RingStateSnapshot}
    (nothing : accepted last snaps = []) : ∀ s ∈ snaps, s.version ≤ last := by
  induction snaps generalizing last with
  | nil => simp
  | cons s rest ih =>
    simp only [accepted] at nothing
    split at nothing
    · contradiction
    · rename_i stale
      exact List.forall_mem_cons.mpr ⟨Int64.not_lt.mp stale, ih nothing⟩

theorem acceptedLast {last : Int64} {snaps : List RingStateSnapshot} {s : RingStateSnapshot}
    (final : (accepted last snaps).getLast? = some s) :
    ∃ before after, snaps = before ++ s :: after ∧ last < s.version ∧
      (∀ t ∈ before, t.version < s.version) ∧ ∀ t ∈ after, t.version ≤ s.version := by
  induction snaps generalizing last with
  | nil => simp [accepted] at final
  | cons head rest ih =>
    simp only [accepted] at final
    split at final
    · rename_i newer
      by_cases nothing : accepted head.version rest = []
      · simp only [nothing, List.getLast?_singleton, Option.some.injEq] at final
        subst final
        exact ⟨[], rest, rfl, newer, by simp, acceptedNone nothing⟩
      · rw [List.getLast?_cons_of_ne_nil nothing] at final
        obtain ⟨before, after, shape, above, smaller, others⟩ := ih final
        refine ⟨head :: before, after, by rw [shape]; rfl, Int64.lt_trans newer above, ?_, others⟩
        exact List.forall_mem_cons.mpr ⟨above, smaller⟩
    · rename_i stale
      obtain ⟨before, after, shape, above, smaller, others⟩ := ih final
      refine ⟨head :: before, after, by rw [shape]; rfl, above, ?_, others⟩
      exact List.forall_mem_cons.mpr
        ⟨Int64.lt_of_le_of_lt (Int64.not_lt.mp stale) above, smaller⟩

theorem newestAccepted (last : Int64) (snaps : List RingStateSnapshot) :
    newest last snaps = (accepted last snaps).getLast? := by
  unfold newest
  cases final : (accepted last snaps).getLast? with
  | none =>
    have stale := acceptedNone (List.getLast?_eq_none_iff.mp final)
    refine List.find?_eq_none.mpr fun s member => ?_
    simp [Int64.not_lt.mpr (stale s member)]
  | some s =>
    obtain ⟨before, after, shape, above, smaller, others⟩ := acceptedLast final
    refine List.find?_eq_some_iff_append.mpr ⟨?_, before, after, shape, fun t inside => ?_⟩
    · rw [shape]
      simp only [decide_eq_true_eq, List.forall_mem_append, List.forall_mem_cons]
      exact ⟨above, fun t inside => Int64.le_of_lt (smaller t inside), Int64.le_refl _, others⟩
    · simp only [Bool.not_eq_true', decide_eq_false_iff_not, not_and]
      intro _ highest
      have tooOld := highest s (by rw [shape]; exact List.mem_append_right _ List.mem_cons_self)
      exact absurd tooOld (Int64.not_le.mpr (smaller t inside))

theorem highWaterCons (last : Int64) (s : RingStateSnapshot) (rest : List RingStateSnapshot) :
    highWater last (s :: rest) = highWater s.version rest := by
  cases rest with
  | nil => rfl
  | cons next rest => simp [highWater, List.getLast?_cons]

theorem acceptedSnoc (last : Int64) (snaps : List RingStateSnapshot) (s : RingStateSnapshot) :
    accepted last (snaps ++ [s]) = accepted last snaps ++
      if highWater last (accepted last snaps) < s.version then [s] else [] := by
  induction snaps generalizing last with
  | nil => rfl
  | cons head rest ih =>
    simp only [List.cons_append, accepted]
    split
    · rw [ih, List.cons_append, highWaterCons]
    · exact ih last

/-! ### The state after the calls -/

def latest (snaps : List RingStateSnapshot) (id : UInt32) : Option BackendSnapshot :=
  snaps.foldl (fun found s => (listing s.backends id).or found) none

theorem latestSnoc (snaps : List RingStateSnapshot) (s : RingStateSnapshot) (id : UInt32) :
    latest (snaps ++ [s]) id = (listing s.backends id).or (latest snaps id) := by
  simp [latest]

structure After (start : Coordinator F) (snaps : List RingStateSnapshot) (c : Coordinator F) :
    Prop where
  version : c.lastVersion = highWater start.lastVersion snaps
  backends : ∀ id, c.ring.backendInfo id =
    ((latest snaps id).map shown).or (start.ring.backendInfo id)
  untouched : snaps = [] → c = start

theorem applyAllSnoc (start : Coordinator F) (calls : List Call) (call : Call) :
    applyAll start (calls ++ [call]) = ((applyAll start calls).applySnapshot call.1 call.2).1 := by
  simp [applyAll]

theorem afterCall {start c : Coordinator F} {snaps : List RingStateSnapshot}
    (after : After start snaps c) (rt : Nat → Runtime) {data : Bytes} {s : RingStateSnapshot}
    (parsed : unmarshal data = some s) (newer : c.lastVersion < s.version) :
    After start (snaps ++ [s]) (c.applySnapshot rt data).1 := by
  rw [applyNewer rt c parsed newer]
  refine ⟨by simp [highWater], fun id => ?_, by simp⟩
  rw [Manager.backendInfo, applyBackendsLookup, ← Manager.backendInfo, after.backends id, latestSnoc]
  cases listing s.backends id with
  | none => rfl
  | some bs => rfl

theorem afterAll (start : Coordinator F) (calls : List Call) :
    After start (accepted start.lastVersion (received calls)) (applyAll start calls) := by
  induction calls using List.reverseRecOn with
  | nil => exact ⟨rfl, fun id => rfl, fun _ => rfl⟩
  | append_singleton calls call ih =>
    rw [applyAllSnoc, received, List.filterMap_append, ← received]
    cases parsed : unmarshal call.2 with
    | none =>
      rw [applyMalformed call.1 _ parsed]
      simpa [parsed] using ih
    | some s =>
      have one : [call].filterMap (fun call => unmarshal call.2) = [s] := by simp [parsed]
      rw [one, acceptedSnoc, ← ih.version]
      split
      · exact afterCall ih call.1 parsed ‹_›
      · rw [applyStale call.1 _ parsed (Int64.not_lt.mp ‹_›), List.append_nil]
        exact ih

theorem latestSome {snaps : List RingStateSnapshot} {id : UInt32} :
    (latest snaps id).isSome = true ↔ ∃ t ∈ snaps, Lists t id := by
  induction snaps using List.reverseRecOn with
  | nil => simp [latest]
  | append_singleton snaps s ih =>
    rw [latestSnoc, Option.isSome_or, Bool.or_eq_true, ih]
    simp only [List.mem_append, List.mem_singleton, or_and_right, exists_or, exists_eq_left]
    exact or_comm

theorem latestNewest {snaps : List RingStateSnapshot} {snap : RingStateSnapshot} {id : UInt32}
    {bs : BackendSnapshot} (final : snaps.getLast? = some snap)
    (listed : listing snap.backends id = some bs) : latest snaps id = some bs := by
  obtain ⟨before, rfl⟩ := List.getLast?_eq_some_iff.mp final
  rw [latestSnoc, listed, Option.some_or]

theorem afterRegistered {start c : Coordinator F} {snaps : List RingStateSnapshot}
    (after : After start snaps c) (id : UInt32) :
    (c.ring.backendInfo id).isSome = true ↔
      (∃ t ∈ snaps, Lists t id) ∨ (start.ring.backendInfo id).isSome = true := by
  rw [after.backends, Option.isSome_or, Option.isSome_map, Bool.or_eq_true, latestSome]

theorem afterIdle {start c : Coordinator F} {snaps : List RingStateSnapshot}
    (after : After start snaps c)
    (idle : ∀ id b, start.ring.backendInfo id = some b → Idle b) {id : UInt32} {b : Backend}
    (found : c.ring.backendInfo id = some b) : Idle b := by
  rw [after.backends] at found
  cases listed : latest snaps id with
  | none =>
    rw [listed] at found
    exact idle id b found
  | some bs =>
    rw [listed] at found
    cases Option.some.inj found
    exact ⟨rfl, rfl⟩

theorem keptThrough {start : Coordinator F} {calls : List Call}
    (keeps : ∀ before call, before ++ [call] <+: calls →
      KeepsLocal (applyAll start before).ring (applyAll start (before ++ [call])).ring)
    {id : UInt32} {b : Backend} (found : start.ring.backendInfo id = some b) :
    ∃ b', (applyAll start calls).ring.backendInfo id = some b' ∧
      b'.activeReqs = b.activeReqs ∧ b'.draining = b.draining := by
  induction calls using List.reverseRecOn with
  | nil => exact ⟨b, found, rfl, rfl⟩
  | append_singleton calls call ih =>
    obtain ⟨middle, there, reqs, draining⟩ :=
      ih fun before call inside => keeps before call (inside.trans (List.prefix_append _ _))
    have still := afterRegistered (afterAll start (calls ++ [call])) id
    obtain ⟨b', final⟩ := Option.isSome_iff_exists.mp (still.mpr (.inr (by rw [found]; rfl)))
    have kept := keeps calls call (List.prefix_refl _) id middle b' there final
    exact ⟨b', final, kept.1.trans reqs, kept.2.trans draining⟩

/-! ### Both directions -/

theorem ignoredCall {c : Coordinator F} {data : Bytes} (ignorable : Ignorable c data)
    (rt : Nat → Runtime) : (c.applySnapshot rt data).1 = c := by
  cases parsed : unmarshal data with
  | none => rw [applyMalformed rt c parsed]
  | some s => rw [applyStale rt c parsed (ignorable s parsed)]

theorem coveredMirrors {start : Coordinator F} {calls : List Call} (covered : Covered start calls)
    {snap : RingStateSnapshot}
    (final : newest start.lastVersion (received calls) = some snap) :
    Mirrors (applyAll start calls).ring snap := by
  obtain ⟨initial, others⟩ := covered snap final
  have after := afterAll start calls
  rw [newestAccepted] at final
  intro id
  cases listed : listing snap.backends id with
  | some bs =>
    refine ⟨shown bs, ?_, ⟨rfl, rfl, rfl, rfl, rfl, rfl⟩⟩
    rw [after.backends, latestNewest final listed]
    rfl
  | none =>
    have unlisted : ¬ Lists snap id := by simp [Lists, listed]
    refine Option.not_isSome_iff_eq_none.mp fun registered => ?_
    rcases (afterRegistered after id).mp registered with ⟨t, member, lists⟩ | known
    · exact unlisted (others t member id lists)
    · obtain ⟨b, found⟩ := Option.isSome_iff_exists.mp known
      exact unlisted (initial id b found).2

theorem staleThrough {last : Int64} {calls : List Call} (stale : newest last (received calls) = none)
    {before : List Call} (inside : before <+: calls) : accepted last (received before) = [] := by
  rw [newestAccepted, List.getLast?_eq_none_iff] at stale
  have old := acceptedNone stale
  by_contra nonempty
  obtain ⟨s, final⟩ := Option.isSome_iff_exists.mp (List.getLast?_isSome.mpr nonempty)
  obtain ⟨front, rest, shape, above, _⟩ := acceptedLast final
  have member : s ∈ received before := by rw [shape]; exact List.mem_append_right _ List.mem_cons_self
  have later : s ∈ received calls := (inside.filterMap _).subset member
  exact absurd above (Int64.not_lt.mpr (old s later))

theorem coveredKeeps {start : Coordinator F} {calls : List Call} (covered : Covered start calls)
    {before : List Call} {call : Call} (inside : before ++ [call] <+: calls) :
    KeepsLocal (applyAll start before).ring (applyAll start (before ++ [call])).ring := by
  intro id b b' found found'
  cases final : newest start.lastVersion (received calls) with
  | none =>
    have first := staleThrough final ((List.prefix_append before [call]).trans inside)
    have second := staleThrough final inside
    rw [(afterAll start before).untouched first] at found
    rw [(afterAll start _).untouched second, found] at found'
    cases found'
    exact ⟨rfl, rfl⟩
  | some snap =>
    have idle := fun id b found => ((covered snap final).1 id b found).1
    have left := afterIdle (afterAll start before) idle found
    have right := afterIdle (afterAll start _) idle found'
    exact ⟨right.activeReqs.trans left.activeReqs.symm, right.draining.trans left.draining.symm⟩

theorem convergesCovered {start : Coordinator F} {calls : List Call}
    (converges : Converges start calls) : Covered start calls := by
  intro snap final
  have after := afterAll start calls
  have mirrors := converges.mirrors snap final
  have registered (id : UInt32) (known : (applyAll start calls).ring.backendInfo id ≠ none) :
      ∃ bs, listing snap.backends id = some bs ∧
        ∃ b, (applyAll start calls).ring.backendInfo id = some b ∧ Matches b bs := by
    have shows := mirrors id
    cases listed : listing snap.backends id with
    | none => rw [listed] at shows; exact absurd shows known
    | some bs => rw [listed] at shows; exact ⟨bs, rfl, shows⟩
  refine ⟨fun id b found => ?_, fun t member id lists => ?_⟩
  · obtain ⟨b', there, reqs, draining⟩ := keptThrough converges.keepsLocal found
    obtain ⟨bs, listed, _⟩ := registered id (by simp [there])
    rw [newestAccepted] at final
    rw [after.backends, latestNewest final listed] at there
    cases Option.some.inj there
    exact ⟨⟨reqs.symm, draining.symm⟩, by rw [Lists, listed]; rfl⟩
  · have known := (afterRegistered after id).mpr (.inl ⟨t, member, lists⟩)
    obtain ⟨bs, listed, _⟩ := registered id (Option.isSome_iff_ne_none.mp known)
    rw [Lists, listed]
    rfl

theorem convergesExact (start : Coordinator F) (calls : List Call) :
    Converges start calls ↔ Covered start calls := by
  refine ⟨convergesCovered, fun covered => ⟨fun snap => coveredMirrors covered, ?_, ?_, ?_⟩⟩
  · intro stale
    rw [newestAccepted, List.getLast?_eq_none_iff] at stale
    exact (afterAll start calls).untouched stale
  · intro before call _ ignorable
    rw [applyAllSnoc]
    exact ignoredCall ignorable call.1
  · exact fun before call => coveredKeeps covered

/-! ### A backend the newest snapshot does not list -/

def oneBackend : Coordinator ℚ :=
  newCoordinator ((newManager (Config.load {})).addBackend .plain { id := 1, health := true })

def listsOther : RingStateSnapshot :=
  ⟨[⟨2, #v[10, 0, 0, 2], 80, 150, 1000, true, false⟩], RingSnapshot.zeroTime, [], 1⟩

def otherOnly : List Call := [(fun _ => .plain, marshal listsOther)]

theorem removedBackendStays : ¬ Converges oneBackend otherOnly := by
  have parsed : unmarshal (marshal listsOther) = some listsOther := unmarshalMarshal listsOther
  have arrives : received otherOnly = [listsOther] := by simp [received, otherOnly, parsed]
  have fresh : (1 : UInt32) ∉ (newManager (Config.load {}) : Manager ℚ).backends :=
    AList.notMem_empty 1
  have initial : oneBackend.ring.backendInfo 1 = some _ := addBackendLookup .plain _ _ fresh
  have known := (afterRegistered (afterAll oneBackend otherOnly) 1).mpr (.inr (by rw [initial]; rfl))
  intro converges
  have mirrors := converges.mirrors listsOther (by rw [arrives]; rfl) 1
  have unlisted : listing listsOther.backends 1 = none := by decide
  rw [unlisted] at mirrors
  rw [mirrors] at known
  exact Bool.false_ne_true known

end OmegaLb.FollowerConvergence
