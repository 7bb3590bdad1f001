import Mathlib.Data.List.Pairwise
import Mathlib.Logic.Function.Basic
import OmegaLb.Coordinator

/-! Leaders that follow one another under the lock, each with a clock of its own, and the
followers of the state key. As long as every clock reads later than all versions already
put, each Put a follower receives is applied. -/
namespace OmegaLb.Failover
open GoText (Bytes)
open RingManager
open Consensus
open RingSnapshot (BackendSnapshot RingStateSnapshot Timestamp marshal)
open StepRun (Run Guarded Does)

variable {N F : Type}

/-- `puts` are the snapshots put to the state key, in store order: the store holds their
text. `cursor` counts those a node has received. -/
structure Cluster (N F : Type) where
  nodes : N → Coordinator F
  lock : Option N
  puts : List RingStateSnapshot
  cursor : N → Nat

/-- What a leader lists and its clock's reading are free: reading its ring takes several
locked calls, and nothing relates the clocks. -/
inductive Event (N F : Type) where
  | acquire (n : N)
  | release (n : N)
  | ring (n : N) (rt : Runtime) (op : Op F)
  | publish (n : N) (listed : List BackendSnapshot) (now : Int64) (updatedAt : Timestamp)
      (nodeID : Bytes)
  | deliver (n : N) (rt : Nat → Runtime)

def start (rings : N → Manager F) : Cluster N F :=
  { nodes := fun n => newCoordinator (rings n), lock := none, puts := [], cursor := fun _ => 0 }

def versions (puts : List RingStateSnapshot) : List Int64 := puts.map RingStateSnapshot.version

def Later (s : Cluster N F) : Event N F → Prop
  | .publish _ _ now _ _ => 0 < now ∧ ∀ v ∈ versions s.puts, v < now
  | _ => True

structure Ordered (s : Cluster N F) : Prop where
  increasing : (versions s.puts).Pairwise (· < ·)
  positive : ∀ v ∈ versions s.puts, 0 < v
  bounded : ∀ n, s.cursor n ≤ s.puts.length
  received : ∀ n, (s.nodes n).lastVersion = highWater 0 (s.puts.take (s.cursor n))

theorem startOrdered (rings : N → Manager F) : Ordered (start rings) :=
  ⟨.nil, by simp [versions, start], fun _ => Nat.le_refl 0, fun _ => rfl⟩

theorem highWaterBelow {puts : List RingStateSnapshot} (increasing : (versions puts).Pairwise (· < ·))
    (positive : ∀ v ∈ versions puts, 0 < v) {k : Nat} {snap : RingStateSnapshot}
    (next : puts[k]? = some snap) : highWater 0 (puts.take k) < snap.version := by
  obtain ⟨bound, rfl⟩ := List.getElem?_eq_some_iff.mp next
  cases last : (puts.take k).getLast? with
  | none =>
    have low : highWater 0 (puts.take k) = 0 := by simp [highWater, last]
    rw [low]
    exact positive _ (List.mem_map.mpr ⟨_, List.getElem_mem bound, rfl⟩)
  | some previous =>
    have low : highWater 0 (puts.take k) = previous.version := by simp [highWater, last]
    have before : previous ∈ puts.take k := List.mem_of_getLast? last
    have after : puts[k] ∈ puts.drop k := by
      rw [List.drop_eq_getElem_cons bound]
      exact List.mem_cons_self
    rw [low]
    rw [versions, List.pairwise_map, ← List.take_append_drop k puts, List.pairwise_append] at increasing
    exact increasing.2.2 previous before _ after

theorem putOrdered {s : Cluster N F} (held : Ordered s) {snap : RingStateSnapshot}
    (positive : 0 < snap.version) (latest : ∀ v ∈ versions s.puts, v < snap.version) :
    Ordered { s with puts := s.puts ++ [snap] } where
  increasing := by
    simp only [versions, List.map_append, List.map_cons, List.map_nil] at latest ⊢
    refine List.pairwise_append.mpr ⟨held.increasing, List.pairwise_singleton _ _, ?_⟩
    simpa using latest
  positive := by
    simp only [versions, List.map_append, List.map_cons, List.map_nil, List.mem_append,
      List.mem_singleton]
    rintro v (old | rfl)
    · exact held.positive v old
    · exact positive
  bounded := fun n => by
    rw [List.length_append]
    exact Nat.le_add_right_of_le (held.bounded n)
  received := fun n => by
    rw [List.take_append_of_le_length (held.bounded n)]
    exact held.received n

theorem nextNewer {s : Cluster N F} (held : Ordered s) {n : N} {snap : RingStateSnapshot}
    (next : s.puts[s.cursor n]? = some snap) : (s.nodes n).lastVersion < snap.version := by
  rw [held.received n]
  exact highWaterBelow held.increasing held.positive next

/-! ### What one event does -/

variable [DecidableEq N] [GoFloat F]

def exec (s : Cluster N F) : Event N F → Option (Cluster N F)
  | .acquire n => if s.lock = none then some { s with lock := some n } else none
  | .release n => if s.lock = some n then some { s with lock := none } else none
  | .ring n rt op =>
    match (s.nodes n).ring.apply rt op with
    | .ok ring => some { s with nodes := Function.update s.nodes n { s.nodes n with ring := ring } }
    | .error _ => none
  | .publish n listed now updatedAt nodeID =>
    if s.lock = some n then some { s with puts := s.puts ++ [⟨listed, updatedAt, nodeID, now⟩] }
    else none
  | .deliver n rt =>
    -- a leader does not watch
    if s.lock = some n then none
    else (s.puts[s.cursor n]?).map fun snap =>
      { s with
        nodes := Function.update s.nodes n ((s.nodes n).applySnapshot rt (marshal snap)).1
        cursor := Function.update s.cursor n (s.cursor n + 1) }

theorem deliverSome {s t : Cluster N F} {n : N} {rt : Nat → Runtime}
    (delivers : Does exec s (.deliver n rt) t) : ∃ snap, s.puts[s.cursor n]? = some snap ∧
      t = { s with
        nodes := Function.update s.nodes n ((s.nodes n).applySnapshot rt (marshal snap)).1
        cursor := Function.update s.cursor n (s.cursor n + 1) } := by
  simp only [Does, exec] at delivers
  split at delivers <;> try contradiction
  obtain ⟨snap, next, same⟩ := Option.map_eq_some_iff.mp delivers
  exact ⟨snap, next, same.symm⟩

theorem deliverOrdered {s t : Cluster N F} (held : Ordered s) {n : N} {rt : Nat → Runtime}
    (delivers : Does exec s (.deliver n rt) t) : Ordered t := by
  obtain ⟨snap, next, rfl⟩ := deliverSome delivers
  have applied := applyNewerApplied rt (nextNewer held next)
  obtain ⟨inside, same⟩ := List.getElem?_eq_some_iff.mp next
  refine ⟨held.increasing, held.positive, ?_, fun m => ?_⟩
  · exact (Function.forall_update_iff s.cursor fun _ k => k ≤ s.puts.length).mpr
      ⟨Nat.succ_le_of_lt inside, fun m _ => held.bounded m⟩
  · by_cases own : m = n
    · subst m
      have last : (s.puts.take (s.cursor n + 1)).getLast? = some snap := by
        rw [← same, ← List.take_concat_get' _ _ inside, List.getLast?_concat]
      simp [highWater, last, applied.version]
    · simpa [own] using held.received m

theorem stepOrdered {s t : Cluster N F} {e : Event N F} (held : Ordered s) (later : Later s e)
    (taken : Does exec s e t) : Ordered t := by
  cases e with
  | acquire n =>
    simp only [Does, exec] at taken
    split at taken <;> try contradiction
    cases taken
    exact ⟨held.increasing, held.positive, held.bounded, held.received⟩
  | release n =>
    simp only [Does, exec] at taken
    split at taken <;> try contradiction
    cases taken
    exact ⟨held.increasing, held.positive, held.bounded, held.received⟩
  | ring n rt op =>
    simp only [Does, exec] at taken
    split at taken <;> try contradiction
    cases taken
    refine ⟨held.increasing, held.positive, held.bounded, ?_⟩
    exact (Function.forall_update_iff s.nodes fun m c =>
      c.lastVersion = highWater 0 (s.puts.take (s.cursor m))).mpr
        ⟨held.received n, fun m _ => held.received m⟩
  | publish n listed now updatedAt nodeID =>
    simp only [Does, exec] at taken
    split at taken <;> try contradiction
    cases taken
    exact putOrdered held later.1 later.2
  | deliver n rt => exact deliverOrdered held taken

theorem deliveredApplied {rings : N → Manager F} {es : List (Event N F)} {s t : Cluster N F}
    (run : Run (Guarded Later (Does exec)) (start rings) es s) {n : N} {rt : Nat → Runtime}
    (delivers : Does exec s (.deliver n rt) t) :
    ∃ snap, s.puts[s.cursor n]? = some snap ∧ Applied (t.nodes n) snap := by
  have preserved (u : Cluster N F) (e) (v) : Ordered u → Later u e → Does exec u e v → Ordered v :=
    stepOrdered
  have held := StepRun.guardedInvariant preserved run (startOrdered rings)
  obtain ⟨snap, next, rfl⟩ := deliverSome delivers
  refine ⟨snap, next, ?_⟩
  simp only [Function.update_self]
  exact applyNewerApplied rt (nextNewer held next)

/-! ### Two leaders and one follower -/

def rings (_ : Fin 3) : Manager ℚ := newManager (Config.load {})

def stamped (version : Int64) : RingStateSnapshot := ⟨[], RingSnapshot.zeroTime, [], version⟩

def publishes (n : Fin 3) (now : Int64) : Event (Fin 3) ℚ :=
  .publish n [] now RingSnapshot.zeroTime []

def handover (first second : Int64) : List (Event (Fin 3) ℚ) :=
  [.acquire 0, publishes 0 first, .release 0, .acquire 1, publishes 1 second,
    .deliver 2 fun _ => .plain]

def follower (first : Int64) : Coordinator ℚ :=
  ((newCoordinator (rings 2)).applySnapshot (fun _ => .plain) (marshal (stamped first))).1

def handed (first second : Int64) : Cluster (Fin 3) ℚ where
  nodes := Function.update (start rings).nodes 2 (follower first)
  lock := some 1
  puts := [stamped first, stamped second]
  cursor := Function.update (fun _ => 0) 2 1

theorem deliversSecond (first second : Int64) :
    ∃ t, Does exec (handed first second) (.deliver 2 fun _ => .plain) t := ⟨_, rfl⟩

theorem deliveredAfterHandover : ∃ t, Does exec (handed 100 200) (.deliver 2 fun _ => .plain) t ∧
    ∃ snap, (handed 100 200).puts[(handed 100 200).cursor 2]? = some snap ∧
      Applied (t.nodes 2) snap := by
  have run : Run (Guarded Later (Does exec)) (start rings) (handover 100 200) (handed 100 200) :=
    .cons ⟨trivial, rfl⟩ <| .cons ⟨⟨by decide, by simp [versions, start]⟩, rfl⟩ <|
      .cons ⟨trivial, rfl⟩ <| .cons ⟨trivial, rfl⟩ <|
      .cons ⟨⟨by decide, by simp [versions, start]⟩, rfl⟩ <| .cons ⟨trivial, rfl⟩ <| .nil _
  obtain ⟨t, delivers⟩ := deliversSecond 100 200
  exact ⟨t, delivers, deliveredApplied run delivers⟩

theorem slowerClockDiscarded : ¬ ∀ (es : List (Event (Fin 3) ℚ)) (s t : Cluster (Fin 3) ℚ) (n : Fin 3)
    (rt : Nat → Runtime), Run (Does exec) (start rings) es s → Does exec s (.deliver n rt) t →
      ∃ snap, s.puts[s.cursor n]? = some snap ∧ Applied (t.nodes n) snap := by
  intro always
  have run : Run (Does exec) (start rings) (handover 200 100) (handed 200 100) :=
    StepRun.runFoldlM rfl
  obtain ⟨t, delivers⟩ := deliversSecond 200 100
  obtain ⟨snap, next, applied⟩ := always _ _ _ _ _ run delivers
  cases Option.some.inj next
  obtain ⟨_, same, rfl⟩ := deliverSome delivers
  cases Option.some.inj same
  have first : (follower 200).lastVersion = 200 :=
    (applyNewerApplied (c := newCoordinator (rings 2)) _ (by decide)).version
  have stale := applyStale (fun _ => .plain) (follower 200)
    (RingSnapshot.unmarshalMarshal (stamped 100)) (by rw [first]; decide)
  have version : ((follower 200).applySnapshot (fun _ => .plain) (marshal (stamped 100))).1.lastVersion =
    100 := applied.version
  rw [stale, first] at version
  exact absurd version (by decide)

end OmegaLb.Failover
