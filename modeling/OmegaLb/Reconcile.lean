import OmegaLb.TieOrder

/-! Restart: ReconcileFromEBPF of reconcile.go on a fresh manager, after SortedPositions and the
registry of the previous one were written to the pinned maps. -/
namespace OmegaLb.Reconcile
open RingManager RingInvariant RingOwner
open TieOrder (sharing sharer)
open StepRun (Run)
open Config (RingConfig load)

variable {F : Type}

/-! ### The pinned maps -/

structure BackendEntry where
  ip : Vector UInt8 4
  port : UInt16
  health : UInt8
  pad : UInt8 := 0
  vnodeCount : UInt32
  activeReqs : UInt32 := 0
  ewmaLatencyNs : UInt32 := 0
  deriving DecidableEq, Repr

/-- ha_ring_map and one iteration over it. An iterator that reports no error has visited
every position once, in an order of the kernel's choice. -/
structure RingMap where
  contents : GoMap UInt32 UInt32
  visited : List UInt32
  err : Option String
  complete : err = none → visited.Perm contents.keys

def RingMap.inOrder (contents : GoMap UInt32 UInt32) : RingMap := ⟨contents, contents.keys, none, fun _ => .rfl⟩

inductive ReconcileError where
  | openRing (cause : String)
  | openRegistry (cause : String)
  | iterate (cause : String)
  deriving DecidableEq, Repr

def ReconcileError.text : ReconcileError → String
  | .openRing cause => "open pinned ha_ring_map: " ++ cause ++
      "; if this is a fresh start, skip reconciliation"
  | .openRegistry cause => "open pinned instance_registry: " ++ cause
  | .iterate cause => "iterate ha_ring_map: " ++ cause

/-! ### Writing and reading back -/

def sortedPositions (m : Manager F) : List (UInt32 × UInt32) :=
  m.ring.map fun vn => (vn.pos, vn.backend)

def entryOf (b : Backend) : BackendEntry where
  ip := b.ip
  port := b.port
  health := if b.health then 1 else 0
  vnodeCount := UInt32.ofInt b.vnodeCount

/-- Position by position, as a map update each: a later one replaces an earlier one. -/
def haRingMap (m : Manager F) : GoMap UInt32 UInt32 := GoMap.writeAll (sortedPositions m)

def instanceRegistry (m : Manager F) : GoMap UInt32 BackendEntry :=
  GoMap.writeAll ((GoMap.values m.backends).map fun b => (b.id, entryOf b))

def vnodeCounts (ring : RingMap) : GoMap UInt32 Int :=
  GoMap.tally (ring.visited.filterMap fun pos => ring.contents.lookup pos)

def restoreOne (registry : GoMap UInt32 BackendEntry) (counts : GoMap UInt32 Int)
    (backends : GoMap UInt32 Backend) (instID : UInt32) : GoMap UInt32 Backend :=
  match registry.lookup instID, counts.lookup instID with
  | some be, some vcount => backends.insert instID
      { id := instID, ip := be.ip, port := be.port, vnodeCount := vcount, health := be.health == 1 }
  | _, _ => backends

def reconcileFromEBPF (rt : Runtime) (m : Manager F) (ringMap : Except String RingMap)
    (regMap : Except String (GoMap UInt32 BackendEntry)) : Except ReconcileError (Manager F) :=
  match ringMap, regMap with
  | .error cause, _ => .error (.openRing cause)
  | .ok _, .error cause => .error (.openRegistry cause)
  | .ok ring, .ok registry =>
    match ring.err with
    | some cause => .error (.iterate cause)
    | none =>
      let counts := vnodeCounts ring
      let backends := (rt.keyOrder counts.keys).foldl (restoreOne registry counts) ∅
      .ok ({ m with backends := backends }.rebuild rt)

/-! ### What is read back -/

theorem registryLookup {m : Manager F} (keyed : KeyedById m.backends) (id : UInt32) :
    (instanceRegistry m).lookup id = (m.backends.lookup id).map entryOf := by
  unfold instanceRegistry
  cases registered : m.backends.lookup id with
  | none =>
    by_contra present
    obtain ⟨be, found⟩ := Option.ne_none_iff_exists'.mp present
    obtain ⟨b, inside, same⟩ := List.mem_map.mp (GoMap.writeAllMem found)
    cases same
    obtain ⟨k, held⟩ := GoMap.memValues.mp inside
    rw [← keyed k b held, registered] at held
    contradiction
  | some b =>
    have own : b.id = id := keyed id b registered
    have written : (b.id, entryOf b) ∈ (GoMap.values m.backends).map fun b => (b.id, entryOf b) :=
      List.mem_map_of_mem (GoMap.memValues.mpr ⟨id, registered⟩)
    obtain ⟨be, found⟩ := GoMap.writeAllKeys written
    rw [own] at found
    obtain ⟨c, inside, same⟩ := List.mem_map.mp (GoMap.writeAllMem found)
    cases same
    obtain ⟨k, held⟩ := GoMap.memValues.mp inside
    rw [← keyed k c held, registered] at held
    cases held
    exact found

def restoredAt (registry : GoMap UInt32 BackendEntry) (counts : GoMap UInt32 Int) (instID : UInt32) :
    Option Backend :=
  (registry.lookup instID).bind fun be => (counts.lookup instID).map fun vcount =>
    { id := instID, ip := be.ip, port := be.port, vnodeCount := vcount, health := be.health == 1 }

theorem restoreOneLookup (registry : GoMap UInt32 BackendEntry) (counts : GoMap UInt32 Int)
    (backends : GoMap UInt32 Backend) (instID id : UInt32) :
    (restoreOne registry counts backends instID).lookup id =
      if id = instID then restoredAt registry counts instID <|> backends.lookup id
      else backends.lookup id := by
  unfold restoreOne restoredAt
  cases registry.lookup instID with
  | none => simp
  | some be =>
    cases counts.lookup instID with
    | none => simp
    | some vcount =>
      by_cases same : id = instID
      · subst same
        simp
      · simp [same, AList.lookup_insert_ne same]

theorem restoredLookup (registry : GoMap UInt32 BackendEntry) (counts : GoMap UInt32 Int)
    (ids : List UInt32) (id : UInt32) :
    (ids.foldl (restoreOne registry counts) ∅).lookup id =
      if id ∈ ids then restoredAt registry counts id else none := by
  induction ids using List.reverseRecOn with
  | nil => rfl
  | append_singleton ids instID ih =>
    rw [List.foldl_append, List.foldl_cons, List.foldl_nil, restoreOneLookup, ih]
    by_cases same : id = instID
    · subst same
      by_cases inside : id ∈ ids <;> simp [inside]
    · simp [same]

theorem idsVisited {ring : RingMap} (whole : ring.err = none) :
    (ring.visited.filterMap fun pos => ring.contents.lookup pos).Perm (GoMap.values ring.contents) := by
  have keys := GoMap.filterMapKeys ring.contents (fun id : UInt32 => id)
  simp only [Option.map_id', List.map_id'] at keys
  rw [← keys]
  exact (ring.complete whole).filterMap _

/-- How many positions of the written ring map hold this id. -/
def positionsHeld (m : Manager F) (id : UInt32) : Nat := (GoMap.values (haRingMap m)).count id

def readBack (b : Backend) (vcount : Int) : Backend :=
  { id := b.id, ip := b.ip, port := b.port, vnodeCount := vcount, health := b.health }

theorem countsHeld {m : Manager F} {ring : RingMap} (written : ring.contents = haRingMap m)
    (whole : ring.err = none) (id : UInt32) : (vnodeCounts ring).lookup id =
      if 0 < positionsHeld m id then some (positionsHeld m id : Int) else none := by
  have visited := idsVisited whole
  rw [written] at visited
  unfold vnodeCounts positionsHeld
  rw [GoMap.tallyLookup, written, visited.count_eq]
  simp only [visited.mem_iff, List.count_pos_iff]

theorem entryHealth (b : Backend) : ((entryOf b).health == 1) = b.health := by
  unfold entryOf
  cases b.health <;> rfl

theorem restoredBackends (rt : Runtime) {m : Manager F} (keyed : KeyedById m.backends) {ring : RingMap}
    (written : ring.contents = haRingMap m) (whole : ring.err = none) (id : UInt32) :
    ((rt.keyOrder (vnodeCounts ring).keys).foldl (restoreOne (instanceRegistry m) (vnodeCounts ring))
      ∅).lookup id = if 0 < positionsHeld m id then
        (m.backends.lookup id).map fun b => readBack b (positionsHeld m id) else none := by
  have counted := countsHeld written whole id
  have listed : id ∈ rt.keyOrder (vnodeCounts ring).keys ↔ 0 < positionsHeld m id := by
    rw [(rt.keyOrderPerm _).mem_iff, ← AList.mem_keys, ← AList.lookup_isSome, counted]
    split <;> simp [*]
  rw [restoredLookup]
  simp only [listed]
  split
  · unfold restoredAt
    rw [registryLookup keyed, counted, if_pos ‹_›]
    cases registered : m.backends.lookup id with
    | none => rfl
    | some b =>
      have own : b.id = id := keyed id b registered
      simp only [Option.map_some, Option.bind_some, entryHealth, readBack, own]
      rfl
  · rfl

/-- The backends of the old manager that hold a position, each with as many vnodes as it holds. -/
def ReadsBack (m restored : Manager F) : Prop := ∀ id, restored.backends.lookup id =
  if 0 < positionsHeld m id then (m.backends.lookup id).map fun b => readBack b (positionsHeld m id)
  else none

theorem reconciled (rt : Runtime) {m : Manager F} (keyed : KeyedById m.backends) (fresh : Manager F)
    (ring : RingMap) (written : ring.contents = haRingMap m) (whole : ring.err = none) :
    ∃ restored, reconcileFromEBPF rt fresh (.ok ring) (.ok (instanceRegistry m)) = .ok restored ∧
      Sound restored ∧ ReadsBack m restored := by
  let backends := (rt.keyOrder (vnodeCounts ring).keys).foldl
    (restoreOne (instanceRegistry m) (vnodeCounts ring)) ∅
  have lookups := restoredBackends rt keyed written whole
  have reads : ReadsBack m ({ fresh with backends := backends }.rebuild rt) := lookups
  refine ⟨{ fresh with backends := backends }.rebuild rt, ?_, ?_, reads⟩
  · simp only [reconcileFromEBPF, whole, backends]
  · refine rebuildSound rt fun k b found => ?_
    dsimp only at found
    rw [lookups] at found
    split at found
    · obtain ⟨c, registered, same⟩ := Option.map_eq_some_iff.mp found
      rw [← same]
      exact keyed k c registered
    · contradiction

/-! ### What the ring map keeps -/

theorem ringCount {m : Manager F} (sound : Sound m) (id : UInt32) :
    (m.ring.map Vnode.backend).count id =
      ((m.backends.lookup id).map fun b => b.vnodes.length).getD 0 := by
  have elsewhere : ∀ k b, m.backends.lookup k = some b → k ≠ id →
      (b.vnodes.map Vnode.backend).count id = 0 := by
    intro k b found other
    apply List.count_eq_zero.mpr
    intro inside
    obtain ⟨vn, own, same⟩ := List.mem_map.mp inside
    rw [(memVnodes own).1, sound.keyed k b found] at same
    exact other same
  rw [(sound.vnodes.map _).count_eq, List.map_flatMap, List.count_flatMap]
  refine (GoMap.sumValuesAt m.backends (fun b => (b.vnodes.map Vnode.backend).count id) id
    elsewhere).trans ?_
  cases found : m.backends.lookup id with
  | none => rfl
  | some b =>
    have whole : ∀ x ∈ b.vnodes.map Vnode.backend, id = x := by
      intro x inside
      obtain ⟨vn, own, same⟩ := List.mem_map.mp inside
      rw [← same, (memVnodes own).1, sound.keyed id b found]
    simp [List.count_eq_length.mpr whole]

theorem vnodesLength {b : Backend} (eligible : b.eligible = true) :
    b.vnodes.length = b.vnodeCount.toNat := by
  simp [Backend.vnodes, eligible]

theorem positionsKept (m : Manager F) : ∃ kept : List (UInt32 × UInt32),
    kept.Sublist (sortedPositions m) ∧ (kept.map Prod.fst).Nodup ∧
      (∀ pos ∈ (sortedPositions m).map Prod.fst, pos ∈ kept.map Prod.fst) ∧
      ∀ id, positionsHeld m id = (kept.map Prod.snd).count id := by
  obtain ⟨kept, sublist, distinct, covered, stored⟩ := GoMap.survivors (sortedPositions m)
  refine ⟨kept, sublist, distinct, covered, fun id => ?_⟩
  have values := stored.map Sigma.snd
  rw [List.map_map] at values
  exact values.count_eq id

theorem positionsIds (m : Manager F) :
    (sortedPositions m).map Prod.fst = m.ring.map Vnode.pos ∧
      (sortedPositions m).map Prod.snd = m.ring.map Vnode.backend := by
  constructor <;> simp [sortedPositions, Function.comp_def]

/-! ### What survives a restart -/

structure Restores (m restored : Manager F) : Prop where
  registered : ∀ id, id ∈ restored.backends ↔ id ∈ m.backends
  same : ∀ id b c, m.backends.lookup id = some b → restored.backends.lookup id = some c →
    c.ip = b.ip ∧ c.port = b.port ∧ c.health = b.health ∧ c.vnodeCount = b.vnodeCount
  owner : ∀ key, ownerOf restored key = ownerOf m key

/-- Every registered backend has a vnode on the ring, and no two vnodes share a position. -/
structure Recoverable (m : Manager F) : Prop where
  serving : ∀ id b, m.backends.lookup id = some b →
    b.health = true ∧ b.draining = false ∧ 1 ≤ b.vnodeCount
  distinct : (((GoMap.values m.backends).flatMap Backend.vnodes).map Vnode.pos).Nodup

theorem heldAtMost (m : Manager F) (id : UInt32) :
    positionsHeld m id ≤ (m.ring.map Vnode.backend).count id := by
  obtain ⟨kept, sublist, _, _, held⟩ := positionsKept m
  rw [held, ← (positionsIds m).2]
  exact (sublist.map _).count_le id

theorem restoresRecoverable {m restored : Manager F} (sound : Sound m)
    (reads : ReadsBack m restored) (restores : Restores m restored) : Recoverable m := by
  have counts : ∀ id b, m.backends.lookup id = some b →
      0 < positionsHeld m id ∧ b.vnodeCount = positionsHeld m id := by
    intro id b registered
    have present := (restores.registered id).mpr (AList.lookup_isSome.mp (by simp [registered]))
    obtain ⟨c, found⟩ := Option.isSome_iff_exists.mp (AList.lookup_isSome.mpr present)
    have vcount := (restores.same id b c registered found).2.2.2
    rw [reads id, registered] at found
    split at found <;> try contradiction
    cases found
    exact ⟨‹_›, vcount.symm⟩
  have serving : ∀ id b, m.backends.lookup id = some b → b.eligible = true ∧ 1 ≤ b.vnodeCount := by
    intro id b registered
    have onRing := Nat.lt_of_lt_of_le (counts id b registered).1 (heldAtMost m id)
    obtain ⟨vn, inside, owner⟩ := List.mem_map.mp (List.count_pos_iff.mp onRing)
    obtain ⟨c, found, eligible, count⟩ := (ownerExact sound id).mp ⟨vn, inside, owner⟩
    cases registered.symm.trans found
    exact ⟨eligible, count⟩
  -- no id lost a position, so no write replaced another
  obtain ⟨kept, sublist, distinct, _, held⟩ := positionsKept m
  have level : ∀ id, (kept.map Prod.snd).count id = ((sortedPositions m).map Prod.snd).count id := by
    intro id
    rw [← held, (positionsIds m).2, ringCount sound]
    cases registered : m.backends.lookup id with
    | none =>
      have most := heldAtMost m id
      rw [ringCount sound, registered] at most
      exact Nat.le_zero.mp most
    | some b =>
      have count := (counts id b registered).2
      simp only [Option.map_some, Option.getD_some, vnodesLength (serving id b registered).1]
      omega
  have length := (List.perm_iff_count.mpr level).length_eq
  rw [List.length_map, List.length_map] at length
  rw [sublist.eq_of_length length, (positionsIds m).1] at distinct
  refine ⟨fun id b registered => ?_, ((sound.vnodes.map _).nodup_iff).mp distinct⟩
  obtain ⟨eligible, count⟩ := serving id b registered
  simp only [Backend.eligible, Bool.and_eq_true, Bool.not_eq_true'] at eligible
  exact ⟨eligible.1, eligible.2, count⟩

theorem heldAll {m : Manager F} (sound : Sound m) (recoverable : Recoverable m) {id : UInt32}
    {b : Backend} (registered : m.backends.lookup id = some b) :
    (positionsHeld m id : Int) = b.vnodeCount := by
  have distinct : (m.ring.map Vnode.pos).Nodup := ((sound.vnodes.map _).nodup_iff).mpr recoverable.distinct
  obtain ⟨healthy, staying, count⟩ := recoverable.serving id b registered
  obtain ⟨kept, sublist, single, covered, held⟩ := positionsKept m
  rw [← (positionsIds m).1] at distinct
  have keys : (kept.map Prod.fst).Perm ((sortedPositions m).map Prod.fst) :=
    (List.perm_ext_iff_of_nodup single distinct).mpr fun pos =>
      ⟨fun inside => (sublist.map _).subset inside, covered pos⟩
  have length := keys.length_eq
  rw [List.length_map, List.length_map] at length
  rw [held, sublist.eq_of_length length, (positionsIds m).2, ringCount sound, registered,
    Option.map_some, Option.getD_some, vnodesLength (by simp [Backend.eligible, healthy, staying])]
  omega

theorem recoverableReads {m restored : Manager F} (sound : Sound m) (recoverable : Recoverable m)
    (reads : ReadsBack m restored) (id : UInt32) :
    restored.backends.lookup id = (m.backends.lookup id).map fun b => readBack b b.vnodeCount := by
  rw [reads id]
  cases registered : m.backends.lookup id with
  | none => simp
  | some b =>
    have count := (recoverable.serving id b registered).2.2
    have same := heldAll sound recoverable registered
    rw [if_pos (by omega), Option.map_some, Option.map_some, same]

theorem recoverableRing {m restored : Manager F} (sound : Sound m) (after : Sound restored)
    (recoverable : Recoverable m) (reads : ReadsBack m restored) (vn : Vnode) :
    vn ∈ restored.ring ↔ vn ∈ m.ring := by
  rw [memRing after, memRing sound, recoverableReads sound recoverable reads]
  cases registered : m.backends.lookup vn.backend with
  | none => simp
  | some b =>
    obtain ⟨healthy, staying, _⟩ := recoverable.serving _ b registered
    have vnodes : (readBack b b.vnodeCount).vnodes = b.vnodes := by
      simp [Backend.vnodes, Backend.eligible, readBack, healthy, staying]
    simp [vnodes]

theorem recoverableRestores {m restored : Manager F} (sound : Sound m) (after : Sound restored)
    (reads : ReadsBack m restored) (recoverable : Recoverable m) : Restores m restored := by
  have restoredAs := recoverableReads sound recoverable reads
  have members := recoverableRing sound after recoverable reads
  have distinct : (m.ring.map Vnode.pos).Nodup := ((sound.vnodes.map _).nodup_iff).mpr recoverable.distinct
  have apart : ∀ v ∈ restored.ring, ∀ w ∈ restored.ring, v.pos = w.pos → v.backend = w.backend :=
    fun v left w right same => congrArg Vnode.backend
      (List.inj_on_of_nodup_map distinct ((members v).mp left) ((members w).mp right) same)
  refine ⟨fun id => ?_, fun id b c registered found => ?_, fun key => ?_⟩
  · rw [← AList.lookup_isSome, ← AList.lookup_isSome, restoredAs, Option.isSome_map]
  · rw [restoredAs, registered] at found
    cases found
    exact ⟨rfl, rfl, rfl, rfl⟩
  · exact ownerWithin after sound (fun vn => (members vn).mp) apart fun vn inside _ => (members vn).mpr inside

variable [GoFloat F]

theorem restartExact {cfg : RingConfig F} {ops m} (run : Run Step (newManager cfg) ops m)
    (rt : Runtime) (newCfg : RingConfig F) (ring : RingMap) (written : ring.contents = haRingMap m)
    (whole : ring.err = none) : ∃ restored,
      reconcileFromEBPF rt (newManager newCfg) (.ok ring) (.ok (instanceRegistry m)) = .ok restored ∧
        (Restores m restored ↔ Recoverable m) := by
  have sound := runSound run
  obtain ⟨restored, returned, after, reads⟩ :=
    reconciled rt sound.keyed (newManager newCfg) ring written whole
  exact ⟨restored, returned, restoresRecoverable sound reads, recoverableRestores sound after reads⟩

theorem twoServersRestart : Recoverable twoServers ∧ ∃ restored,
    reconcileFromEBPF .plain (newManager (load {})) (.ok (.inOrder (haRingMap twoServers)))
      (.ok (instanceRegistry twoServers)) = .ok restored ∧ Restores twoServers restored := by
  have run : Run Step (newManager (load { vnodesPerServer := some 1 }) : Manager ℚ)
      [(.plain, .addBackend { id := 1, health := true }),
        (.plain, .addBackend { id := 2, health := true })] twoServers := .cons rfl (.cons rfl (.nil _))
  have serving : ∀ b ∈ GoMap.values twoServers.backends,
      b.health = true ∧ b.draining = false ∧ 1 ≤ b.vnodeCount := by decide +kernel
  have recoverable : Recoverable twoServers :=
    ⟨fun id b found => serving b (GoMap.memValues.mpr ⟨id, found⟩), by decide +kernel⟩
  obtain ⟨restored, returned, exactly_⟩ := restartExact run .plain (load {})
    (.inOrder (haRingMap twoServers)) rfl rfl
  exact ⟨recoverable, restored, returned, exactly_.mpr recoverable⟩

def oneDown : Manager ℚ :=
  ((newManager (load {})).addBackend .plain { id := 1, health := true }).setHealth .plain 1 false

/-- A state some run reaches that does not come back from the maps it was written to. -/
def LostOnRestart (m : Manager ℚ) : Prop := (∃ ops, Run Step (newManager (load {})) ops m) ∧
  ∃ restored, reconcileFromEBPF .plain (newManager (load {})) (.ok (.inOrder (haRingMap m)))
    (.ok (instanceRegistry m)) = .ok restored ∧ ¬ Restores m restored

theorem lostOnRestart {ops} {m : Manager ℚ} (run : Run Step (newManager (load {})) ops m)
    (unrecoverable : ¬ Recoverable m) : LostOnRestart m := by
  have sound := runSound run
  obtain ⟨restored, returned, _, reads⟩ := reconciled .plain sound.keyed (newManager (load {}))
    (.inOrder (haRingMap m)) rfl rfl
  exact ⟨⟨ops, run⟩, restored, returned, fun restores =>
    unrecoverable (restoresRecoverable sound reads restores)⟩

/-- A backend whose probe failed is gone after a restart; of two that share a position one
comes back with a vnode less. -/
theorem restartLoses : LostOnRestart oneDown ∧ LostOnRestart sharing := by
  have down : Run Step (newManager (load {}) : Manager ℚ)
      [(.plain, .addBackend { id := 1, health := true }), (.plain, .setHealth 1 false)] oneDown :=
    .cons rfl (.cons rfl (.nil _))
  have shared : Run Step (newManager (load {}) : Manager ℚ)
      [(.plain, .addBackend { id := 19, health := true }),
        (.plain, .addBackend { id := 457, health := true })] sharing := .cons rfl (.cons rfl (.nil _))
  apply And.intro
  · apply lostOnRestart down
    intro recoverable
    have dead : ∃ b, oneDown.backends.lookup 1 = some b ∧ b.health = false := ⟨_, rfl, rfl⟩
    obtain ⟨b, registered, down⟩ := dead
    rw [(recoverable.serving 1 b registered).1] at down
    contradiction
  · apply lostOnRestart shared
    intro recoverable
    have due : ∀ id i pos, sharer id ∈ GoMap.values sharing.backends → i < 150 →
        RingHash.murmur3_32 (RingHash.vnodeKey id i) = pos →
        (⟨pos, id⟩ : Vnode) ∈ (GoMap.values sharing.backends).flatMap Backend.vnodes := by
      intro id i pos registered bound hashed
      apply List.mem_flatMap.mpr
      refine ⟨_, registered, List.mem_map.mpr ⟨i, List.mem_range.mpr bound, ?_⟩⟩
      rw [← hashed]
      rfl
    have first := due 19 27 483304950 (by decide +kernel) (by decide) (by decide +kernel)
    have second := due 457 77 483304950 (by decide +kernel) (by decide) (by decide +kernel)
    have same := List.inj_on_of_nodup_map recoverable.distinct first second rfl
    exact absurd (congrArg Vnode.backend same) (by decide)

end OmegaLb.Reconcile
