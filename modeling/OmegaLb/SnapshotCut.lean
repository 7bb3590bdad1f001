import OmegaLb.Coordinator

/-! One call of publishRingState among the other callers of the ring manager. Backends and
each BackendInfo take the manager's lock on their own, so any operation may fall between two
of them, and the list that is published is a cut only when none of those got in its way. -/
namespace OmegaLb.SnapshotCut
open RingManager Consensus
open GoText (Bytes)
open RingSnapshot (BackendSnapshot RingStateSnapshot Timestamp marshal)
open StepRun (Run Guarded Does)

variable {F : Type}

abbrev Table := GoMap UInt32 Backend

def entry (table : Table) (id : UInt32) : Option BackendSnapshot :=
  (table.lookup id).map backendSnapshot

/-- A call in progress: the ids it has still to ask for, what it was told of the others, and
every table there has been since it asked for the ids. -/
structure Call (F : Type) where
  ring : Manager F
  remaining : List UInt32
  read : List (UInt32 × Option BackendSnapshot)
  history : List Table

inductive Event (F : Type) where
  | other (rt : Runtime) (op : Op F)
  | readNext

def begin (rt : Runtime) (m : Manager F) : Call F := ⟨m, m.backendIds rt, [], [m.backends]⟩

def Call.snapshot (s : Call F) (version : Int64) (updatedAt : Timestamp) (nodeID : Bytes) :
    RingStateSnapshot :=
  ⟨s.read.filterMap Prod.snd, updatedAt, nodeID, version⟩

def Call.readBackend (s : Call F) : Option (Call F) :=
  match s.remaining with
  | [] => none
  | id :: rest =>
    some { s with
      remaining := rest
      read := s.read ++ [(id, (s.ring.backendInfo id).map backendSnapshot)] }

def Call.between (s : Call F) (m : Manager F) : Call F :=
  { s with ring := m, history := s.history ++ [m.backends] }

def exec [GoFloat F] (s : Call F) : Event F → Option (Call F)
  | .readNext => s.readBackend
  | .other rt op => (s.ring.apply rt op).toOption.map s.between

/-! ### Uninterrupted, the call publishes the ring's state -/

theorem readsAll [GoFloat F] (s : Call F) :
    Run (Does exec) s (s.remaining.map fun _ => .readNext)
      { s with
        remaining := []
        read := s.read ++ s.remaining.map fun id =>
          (id, (s.ring.backendInfo id).map backendSnapshot) } := by
  obtain ⟨ring, remaining, read, history⟩ := s
  induction remaining generalizing read with
  | nil =>
    rw [List.map_nil, List.map_nil, List.append_nil]
    exact .nil _
  | cons id rest ih =>
    refine .cons rfl ?_
    simpa using ih (read ++ [(id, (ring.backendInfo id).map backendSnapshot)])

theorem uninterrupted [GoFloat F] (rt : Runtime) (m : Manager F) : ∃ events s,
    Run (Does exec) (begin rt m) events s ∧ s.remaining = [] ∧
      ∀ last version updatedAt nodeID, marshal (s.snapshot version updatedAt nodeID) =
        publishRingState rt ⟨m, last⟩ version updatedAt nodeID := by
  refine ⟨_, _, readsAll (begin rt m), rfl, fun last version updatedAt nodeID => ?_⟩
  simp [Call.snapshot, publishRingState, readBackends, begin, List.filterMap_map]

/-! ### The cut -/

/-- The table of one instant gives back all that was read, and has no id besides those
read and those still to be read. -/
structure Agrees (s : Call F) (table : Table) : Prop where
  read : ∀ p ∈ s.read, p.2 = entry table p.1
  known : ∀ id ∈ table, id ∈ s.read.map Prod.fst ∨ id ∈ s.remaining

def SameUnread (s : Call F) (table : Table) : Prop :=
  ∀ id ∈ s.remaining, entry table id = entry s.ring.backends id

instance (s : Call F) (table : Table) : Decidable (SameUnread s table) :=
  List.decidableBAll _ s.remaining

structure Cut (s : Call F) : Prop where
  distinct : (s.read.map Prod.fst ++ s.remaining).Nodup
  instant : ∃ table ∈ s.history, Agrees s table ∧ SameUnread s table

theorem beginCut (rt : Runtime) (m : Manager F) : Cut (begin rt m) := by
  have listed : (m.backendIds rt).Perm m.backends.keys := rt.keyOrderPerm _
  refine ⟨listed.nodup_iff.mpr m.backends.keys_nodup, m.backends, List.mem_singleton_self _,
    ⟨fun p member => absurd member List.not_mem_nil, fun id present => ?_⟩, fun _ _ => rfl⟩
  exact .inr (listed.mem_iff.mpr (AList.mem_keys.mp present))

theorem readBackendCut {s t : Call F} (cut : Cut s) (taken : s.readBackend = some t) : Cut t := by
  obtain ⟨distinct, table, then_, agrees, unread⟩ := cut
  unfold Call.readBackend at taken
  split at taken
  · contradiction
  · rename_i id rest remaining
    cases taken
    rw [remaining] at distinct
    have current : entry table id = entry s.ring.backends id :=
      unread id (by rw [remaining]; exact List.mem_cons_self)
    refine ⟨by simpa using distinct, table, then_, ⟨fun p member => ?_, fun k present => ?_⟩,
      fun k member => unread k (by rw [remaining]; exact List.mem_cons_of_mem id member)⟩
    · rcases List.mem_append.mp member with old | new
      · exact agrees.read p old
      · rw [List.mem_singleton.mp new]
        exact current.symm
    · have before := agrees.known k present
      rw [remaining, List.mem_cons] at before
      simp only [List.map_append, List.mem_append, List.map_cons, List.map_nil,
        List.mem_singleton]
      tauto

theorem betweenCut {s : Call F} {m : Manager F} (cut : Cut s)
    (allowed : SameUnread s m.backends ∨ Agrees s m.backends) : Cut (s.between m) := by
  obtain ⟨distinct, table, then_, agrees, unread⟩ := cut
  refine ⟨distinct, ?_⟩
  rcases allowed with same | now
  · -- the old instant still serves: nothing that will be read has changed
    exact ⟨table, List.mem_append_left _ then_, ⟨agrees.read, agrees.known⟩,
      fun id member => (unread id member).trans (same id member).symm⟩
  · exact ⟨m.backends, List.mem_append_right _ (List.mem_singleton_self _),
      ⟨now.read, now.known⟩, fun _ _ => rfl⟩

theorem cutPublished {s : Call F} (cut : Cut s) (finished : s.remaining = []) :
    ∃ table ∈ s.history, (s.read.filterMap Prod.snd).Perm
      ((GoMap.values table).map backendSnapshot) := by
  obtain ⟨distinct, table, then_, agrees, _⟩ := cut
  have asked : s.read.filterMap Prod.snd =
      (s.read.map Prod.fst).filterMap fun id => (table.lookup id).map backendSnapshot := by
    rw [List.filterMap_map]
    exact List.filterMap_congr agrees.read
  rw [finished, List.append_nil] at distinct
  refine ⟨table, then_, asked ▸ GoMap.filterMapCovered table backendSnapshot distinct ?_⟩
  intro id present
  have known := agrees.known id present
  rw [finished] at known
  exact known.resolve_right List.not_mem_nil

/-! ### Every interleaving -/

variable [GoFloat F]

/-- Another operation leaves the backends not read yet as they are, or else those already
read, and then it registers no new one. -/
def Undisturbed (s : Call F) : Event F → Prop
  | .readNext => True
  | .other rt op => ∀ m, s.ring.apply rt op = .ok m →
      SameUnread s m.backends ∨ Agrees s m.backends

theorem execCut {s t : Call F} {e : Event F} (cut : Cut s) (quiet : Undisturbed s e)
    (taken : exec s e = some t) : Cut t := by
  cases e with
  | readNext => exact readBackendCut cut taken
  | other rt op =>
    obtain ⟨m, applied, same⟩ := Option.map_eq_some_iff.mp taken
    exact same ▸ betweenCut cut (quiet m (goReturned applied))

def ConsistentCut (s : Call F) : Prop :=
  ∀ version updatedAt nodeID, ∃ table ∈ s.history,
    (s.snapshot version updatedAt nodeID).backends.Perm
      ((GoMap.values table).map backendSnapshot)

theorem publishedCut {rt : Runtime} {m : Manager F} {events : List (Event F)} {s : Call F}
    (run : Run (Guarded Undisturbed (Does exec)) (begin rt m) events s)
    (finished : s.remaining = []) : ConsistentCut s := by
  have preserved : ∀ (u : Call F) e v, Cut u → Undisturbed u e → Does exec u e v → Cut v :=
    fun _ _ _ cut quiet taken => execCut cut quiet taken
  have cut := StepRun.guardedInvariant preserved run (beginCut rt m)
  exact fun _ _ _ => cutPublished cut finished

def twoBackends : Manager ℚ :=
  let m := newManager (Config.load {})
  (m.addBackend .plain { id := 1, health := true }).addBackend .plain { id := 2, health := true }

def readAround (op : Op ℚ) : List (Event ℚ) := [.readNext, .other .plain op, .readNext]

theorem changeAfterReadPublished : ∃ s,
    Run (Guarded Undisturbed (Does exec)) (begin .plain twoBackends)
        (readAround (.setVnodeCount 2 7)) s ∧
      s.remaining = [] ∧ ConsistentCut s := by
  obtain ⟨s, run, finished⟩ : ∃ s, Run (Guarded Undisturbed (Does exec)) (begin .plain twoBackends)
      (readAround (.setVnodeCount 2 7)) s ∧ s.remaining = [] := by
    refine ⟨_, .cons ⟨trivial, rfl⟩ (.cons ⟨?_, rfl⟩ (.cons ⟨trivial, rfl⟩ (.nil _))), rfl⟩
    intro m applied
    cases applied
    exact .inl (by decide +kernel)
  exact ⟨s, run, finished, publishedCut run finished⟩

/-- Both backends give up 23 of their 150 vnodes in one adjustment. Backend 2 is published
as it was before it, backend 1 as it was after it. -/
theorem adjustmentHalfPublished : ∃ s,
    Run (Does exec) (begin .plain twoBackends) (readAround (.proactiveAdjust
      ((AList.insert 1 [900] ∅ : GoMap UInt32 (List ℚ)).insert 2 [900]))) s ∧
      s.remaining = [] ∧ ¬ ConsistentCut s := by
  refine ⟨_, .cons rfl (.cons rfl (.cons rfl (.nil _))), rfl, fun cut => ?_⟩
  obtain ⟨table, then_, perm⟩ := cut 0 RingSnapshot.zeroTime []
  revert table
  decide +kernel

end OmegaLb.SnapshotCut
