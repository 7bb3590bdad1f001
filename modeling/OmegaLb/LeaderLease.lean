import Mathlib.Logic.Function.Basic
import OmegaLb.StepRun

/-! The Run loops of any number of coordinators over a store that leases the leader key.
The lease may lapse between any two steps; runLeader never asks for it again, so only a run
in which no holder loses its lease inside runLeader has a single writer. -/
namespace OmegaLb.LeaderLease
open StepRun (Run Guarded Does)

/-- Where a coordinator is: at the top of Run, waiting after a failed TryLock, in the select
of runLeader, in publishRingState before its Put, in runFollower, returned from Run. -/
inductive Phase where
  | trying
  | backingOff
  | leading
  | publishing
  | following
  | stopped
  deriving DecidableEq, Repr

def Phase.inRunLeader (p : Phase) : Bool := p = .leading || p = .publishing

/-- `puts` records every Put of the state key: its issuer and who held the lease then. -/
structure Cluster (N : Type) where
  phase : N → Phase
  lease : Option N
  puts : List (N × Option N)

inductive Event (N : Type) where
  | lockGranted (n : N)
  | lockRefused (n : N)
  | lockFailed (n : N)
  | retry (n : N)
  | tick (n : N)
  | put (n : N) (ok : Bool)
  | marshalFailed (n : N)
  | watchEnded (n : N)
  | cancelled (n : N)
  | expire

def start (N : Type) : Cluster N := { phase := fun _ => .trying, lease := none, puts := [] }

section Model
variable {N : Type} [DecidableEq N]

def Cluster.goto (s : Cluster N) (n : N) (p : Phase) : Cluster N :=
  { s with phase := Function.update s.phase n p }

def Cluster.moves (s : Cluster N) (n : N) (p q : Phase) : Option (Cluster N) :=
  if s.phase n = p then some (s.goto n q) else none

/-- The deferred cancelLock gives back a lease that is still this node's. -/
def Cluster.leave (s : Cluster N) (n : N) (p : Phase) : Cluster N :=
  { s.goto n p with lease := if s.lease = some n then none else s.lease }

def exec (s : Cluster N) : Event N → Option (Cluster N)
  | .lockGranted n =>
    if s.phase n = .trying ∧ s.lease = none then some { s.goto n .leading with lease := some n }
    else none
  | .lockRefused n => s.moves n .trying .following
  | .lockFailed n => s.moves n .trying .backingOff
  | .retry n => s.moves n .backingOff .trying
  | .tick n => s.moves n .leading .publishing
  | .put n ok =>
    if s.phase n = .publishing then
      let s := { s with puts := s.puts ++ [(n, s.lease)] }
      -- a failed publish gives up leadership
      some (if ok then s.goto n .leading else s.leave n .trying)
    else none
  | .marshalFailed n => if s.phase n = .publishing then some (s.leave n .trying) else none
  | .watchEnded n => s.moves n .following .trying
  | .cancelled n =>
    if s.phase n = .leading then some (s.leave n .stopped)
    else if s.phase n = .publishing ∨ s.phase n = .stopped then none
    else some (s.goto n .stopped)
  | .expire => if s.lease = none then none else some { s with lease := none }

end Model

/-! ### A single writer -/

structure SingleWriter {N : Type} (s : Cluster N) : Prop where
  leased : ∀ p ∈ s.puts, p.2 = some p.1
  publishes : ∀ n, s.phase n = .publishing → s.lease = some n

def Alone {N : Type} (s : Cluster N) : Prop :=
  ∀ a b, (s.phase a).inRunLeader = true → (s.phase b).inRunLeader = true → a = b

/-- A leader whose lease has lapsed is cancelled before its ticker fires again, and no lease lapses
between a tick and its Put. -/
def Leased {N : Type} (s : Cluster N) : Event N → Prop
  | .tick n => s.lease = some n
  | .expire => ∀ n, s.lease = some n → s.phase n ≠ .publishing
  | _ => True

def Unlapsed {N : Type} (s : Cluster N) : Event N → Prop
  | .expire => ∀ n, s.lease = some n → (s.phase n).inRunLeader = false
  | _ => True

/-- `busy` holds of the phases that a lease covers: all of runLeader where none lapses in it, else
only the publishing. -/
structure Held {N : Type} (busy : Phase → Bool) (s : Cluster N) : Prop where
  leased : ∀ p ∈ s.puts, p.2 = some p.1
  leaders : ∀ n, busy (s.phase n) = true → s.lease = some n

def Covered {N : Type} (busy : Phase → Bool) (s : Cluster N) : Event N → Prop
  | .tick n => busy .leading = true ∨ s.lease = some n
  | .expire => ∀ n, s.lease = some n → busy (s.phase n) = false
  | _ => True

/-- Putting is always covered, and nothing outside of runLeader is. -/
structure Covers (busy : Phase → Bool) : Prop where
  publishing : busy .publishing = true
  within : ∀ p, busy p = true → p.inRunLeader = true

def isPublishing (p : Phase) : Bool := p = .publishing

theorem publishingCovers : Covers isPublishing :=
  ⟨rfl, fun p busy => by cases p <;> first | rfl | contradiction⟩

theorem runLeaderCovers : Covers Phase.inRunLeader := ⟨rfl, fun _ busy => busy⟩

theorem startHeld (N : Type) {busy : Phase → Bool} (covers : Covers busy) : Held busy (start N) :=
  ⟨by simp [start], fun _ leads => by cases covers.within _ leads⟩

section Step
variable {N : Type} {busy : Phase → Bool}

theorem putHeld (covers : Covers busy) {s : Cluster N} (held : Held busy s) {n : N}
    (publishes : s.phase n = .publishing) : Held busy { s with puts := s.puts ++ [(n, s.lease)] } where
  leased := by
    intro p member
    rcases List.mem_append.mp member with old | new
    · exact held.leased p old
    · rw [List.mem_singleton.mp new]
      exact held.leaders n (publishes ▸ covers.publishing)
  leaders := held.leaders

theorem expireHeld {s : Cluster N} (held : Held busy s) (covered : Covered busy s .expire) :
    Held busy { s with lease := none } where
  leased := held.leased
  leaders := fun n leads => by
    have outside := covered n (held.leaders n leads)
    rw [outside] at leads
    contradiction

variable [DecidableEq N]

theorem gotoHeld {s : Cluster N} (held : Held busy s) {n : N} {p : Phase}
    (allowed : busy p = true → s.lease = some n) : Held busy (s.goto n p) where
  leased := held.leased
  leaders :=
    (Function.forall_update_iff s.phase fun m q => busy q = true → s.lease = some m).mpr
      ⟨allowed, fun m _ => held.leaders m⟩

theorem outsideIdle (covers : Covers busy) {p : Phase} (outside : p.inRunLeader = false) :
    busy p = false :=
  Bool.eq_false_iff.mpr fun leads => by
    rw [covers.within p leads] at outside
    contradiction

theorem movesHeld {s t : Cluster N} (held : Held busy s) {n : N} {p q : Phase}
    (moves : s.moves n p q = some t) (outside : busy q = true → s.phase n = p → s.lease = some n) :
    Held busy t := by
  unfold Cluster.moves at moves
  split at moves <;> try contradiction
  rename_i here
  cases moves
  exact gotoHeld held fun leads => outside leads here

theorem leaveHeld {s : Cluster N} (held : Held busy s) {n : N} {p : Phase}
    (outside : busy p = false) : Held busy (s.leave n p) where
  leased := held.leased
  leaders := fun m leads => by
    by_cases own : m = n
    · subst m
      simp [Cluster.leave, Cluster.goto, outside] at leads
    · simp only [Cluster.leave, Cluster.goto, Function.update_of_ne own] at leads ⊢
      have lease := held.leaders m leads
      rw [lease, if_neg (fun same => own (Option.some.inj same))]

/-- The lease is free, so no phase that it covers goes on: whoever is granted it is alone there. -/
theorem grantHeld {s : Cluster N} (held : Held busy s) (free : s.lease = none) (n : N) :
    Held busy { s.goto n .leading with lease := some n } where
  leased := held.leased
  leaders := fun m leads => by
    by_cases own : m = n
    · rw [own]
    · simp only [Cluster.goto, Function.update_of_ne own] at leads
      have lease := held.leaders m leads
      rw [free] at lease
      contradiction

theorem stepHeld (covers : Covers busy) {s t : Cluster N} {e : Event N} (held : Held busy s)
    (covered : Covered busy s e) (taken : Does exec s e t) : Held busy t := by
  have idle : ∀ p : Phase, p.inRunLeader = false → busy p = false := fun _ => outsideIdle covers
  cases e with
  | lockGranted n =>
    simp only [Does, exec] at taken
    split at taken <;> try contradiction
    rename_i allowed
    cases taken
    exact grantHeld held allowed.2 n
  | lockRefused n => exact movesHeld held taken (by simp [idle .following rfl])
  | lockFailed n => exact movesHeld held taken (by simp [idle .backingOff rfl])
  | retry n => exact movesHeld held taken (by simp [idle .trying rfl])
  | tick n =>
    refine movesHeld held taken fun _ leads => ?_
    rcases covered with within | lease
    · exact held.leaders n (leads ▸ within)
    · exact lease
  | put n ok =>
    simp only [Does, exec] at taken
    split at taken <;> try contradiction
    rename_i publishes
    cases taken
    have recorded := putHeld covers held publishes
    cases ok with
    | true => exact gotoHeld recorded fun _ => held.leaders n (publishes ▸ covers.publishing)
    | false => exact leaveHeld recorded (idle .trying rfl)
  | marshalFailed n =>
    simp only [Does, exec] at taken
    split at taken <;> try contradiction
    cases taken
    exact leaveHeld held (idle .trying rfl)
  | watchEnded n => exact movesHeld held taken (by simp [idle .trying rfl])
  | cancelled n =>
    simp only [Does, exec] at taken
    split at taken
    · cases taken
      exact leaveHeld held (idle .stopped rfl)
    · split at taken <;> try contradiction
      cases taken
      exact gotoHeld held (by simp [idle .stopped rfl])
  | expire =>
    simp only [Does, exec] at taken
    split at taken <;> try contradiction
    cases taken
    exact expireHeld held covered

theorem runHeld (covers : Covers busy) {es : List (Event N)} {s : Cluster N}
    (run : Run (Guarded (Covered busy) (Does exec)) (start N) es s) : Held busy s := by
  have preserved (u : Cluster N) (e) (v) : Held busy u → Covered busy u e → Does exec u e v →
      Held busy v := stepHeld covers
  exact StepRun.guardedInvariant preserved run (startHeld N covers)

end Step

section Runs
variable {N : Type}

theorem leasedCovered {s : Cluster N} {e : Event N} (leased : Leased s e) : Covered isPublishing s e := by
  cases e with
  | tick n => exact .inr leased
  | expire => exact fun n lease => decide_eq_false (leased n lease)
  | _ => trivial

theorem unlapsedCovered {s : Cluster N} {e : Event N} (unlapsed : Unlapsed s e) :
    Covered Phase.inRunLeader s e := by
  cases e with
  | tick n => exact .inl rfl
  | expire => exact unlapsed
  | _ => trivial

variable [DecidableEq N]

theorem unlapsedHeld {es : List (Event N)} {s : Cluster N}
    (run : Run (Guarded Unlapsed (Does exec)) (start N) es s) : Held Phase.inRunLeader s :=
  runHeld runLeaderCovers (StepRun.runWeaken (fun _ _ _ taken => ⟨unlapsedCovered taken.1, taken.2⟩) run)

/-- Where no lease lapses inside of runLeader at all, a leader always has it. -/
theorem unlapsedLeased {es : List (Event N)} {s : Cluster N}
    (run : Run (Guarded Unlapsed (Does exec)) (start N) es s) :
    Run (Guarded Leased (Does exec)) (start N) es s := by
  have leased (u : Cluster N) (e) (v) (held : Held Phase.inRunLeader u) (unlapsed : Unlapsed u e)
      (taken : Does exec u e v) : Leased u e := by
    cases e with
    | tick n =>
      simp only [Does, exec, Cluster.moves] at taken
      split at taken <;> try contradiction
      rename_i leads
      exact held.leaders n (by rw [leads]; rfl)
    | expire =>
      intro n lease publishes
      have outside := unlapsed n lease
      rw [publishes] at outside
      contradiction
    | _ => trivial
  have also := StepRun.guardedAlso (fun u e v held unlapsed taken =>
    stepHeld runLeaderCovers held (unlapsedCovered unlapsed) taken) leased run (startHeld N runLeaderCovers)
  exact StepRun.runWeaken (fun _ _ _ taken => ⟨taken.2, taken.1⟩) also

/-- Where no lease lapses inside of runLeader, no two nodes are in it at once. -/
theorem singleWriter {es : List (Event N)} {s : Cluster N}
    (run : Run (Guarded Leased (Does exec)) (start N) es s) :
    SingleWriter s ∧ (Run (Guarded Unlapsed (Does exec)) (start N) es s → Alone s) := by
  constructor
  · have held := runHeld publishingCovers
      (StepRun.runWeaken (fun _ _ _ taken => ⟨leasedCovered taken.1, taken.2⟩) run)
    exact ⟨held.leased, fun n publishes => held.leaders n (decide_eq_true publishes)⟩
  · intro unlapsed a b first second
    have held := unlapsedHeld unlapsed
    exact Option.some.inj ((held.leaders a first).symm.trans (held.leaders b second))

end Runs

/-- The old leader loses its lease while it leads, and is cancelled before it ticks again. -/
def handedOver : List (Event (Fin 2)) :=
  [.lockGranted 0, .lockRefused 1, .tick 0, .put 0 true, .expire, .watchEnded 1, .lockGranted 1, .tick 1,
    .cancelled 0, .put 1 true]

theorem handedOverPublishes : ∃ s : Cluster (Fin 2), s.lease = some 1 ∧ s.phase 0 = .stopped ∧
    s.puts = [(0, some 0), (1, some 1)] ∧ SingleWriter s := by
  have run : Run (Guarded Leased (Does exec)) (start (Fin 2)) handedOver _ :=
    .cons ⟨trivial, rfl⟩ <| .cons ⟨trivial, rfl⟩ <| .cons ⟨rfl, rfl⟩ <| .cons ⟨trivial, rfl⟩ <|
      .cons ⟨fun n same => by cases same; decide, rfl⟩ <| .cons ⟨trivial, rfl⟩ <| .cons ⟨trivial, rfl⟩ <|
      .cons ⟨rfl, rfl⟩ <| .cons ⟨trivial, rfl⟩ <| .cons ⟨trivial, rfl⟩ <| .nil _
  exact ⟨_, rfl, rfl, rfl, (singleWriter run).1⟩

/-- The condition cannot be relaxed: from a tick without the lease, or a lapse before the Put, the
next Put is made without it. -/
theorem lapsePublishes {N : Type} [DecidableEq N] {s t : Cluster N} {e : Event N}
    (uncovered : ¬ Leased s e) (taken : Does exec s e t) :
    ∃ n u, Does exec t (.put n true) u ∧ ¬ SingleWriter u := by
  have unleased : ∀ n, t.phase n = .publishing → t.lease ≠ some n →
      ∃ n u, Does exec t (.put n true) u ∧ ¬ SingleWriter u := by
    intro n publishes lost
    refine ⟨n, { t.goto n .leading with puts := t.puts ++ [(n, t.lease)] }, ?_, fun single => ?_⟩
    · simp [Does, exec, publishes, Cluster.goto]
    · exact lost (single.leased (n, t.lease) (by simp))
  cases e with
  | tick n =>
    simp only [Does, exec, Cluster.moves] at taken
    split at taken <;> try contradiction
    cases taken
    exact unleased n (by simp [Cluster.goto]) uncovered
  | expire =>
    simp only [Leased, not_forall, not_not] at uncovered
    obtain ⟨n, lease, publishes⟩ := uncovered
    simp only [Does, exec, lease] at taken
    cases taken
    exact unleased n publishes (by simp)
  | _ => exact absurd trivial uncovered

def overlap : List (Event (Fin 2)) :=
  [.lockGranted 0, .expire, .lockGranted 1, .tick 0, .put 0 true, .tick 1, .put 1 true]

theorem lapsedLeaderPublishes : ¬ ∀ es (s : Cluster (Fin 2)),
    Run (Does exec) (start (Fin 2)) es s → SingleWriter s := by
  intro always
  have single := always overlap _ (StepRun.runFoldlM rfl)
  have unlawful := single.leased (0, some 1) (by decide)
  exact absurd unlawful (by decide)

end OmegaLb.LeaderLease
