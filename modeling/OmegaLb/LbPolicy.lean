import OmegaLb.KernelMaps
import OmegaLb.CircularProbe

/-! lb_policy.bpf.c: the start index on the sorted ring, the probe loop and the selection. -/
namespace OmegaLb.LbPolicy
open KernelMaps CircularProbe
open Reconcile (BackendEntry)
open RingHash (murmur3Finalise)

structure Flow where
  remoteIp4 : UInt32
  remotePort : UInt32
  deriving DecidableEq, Repr

/-- murmur3_fmix32 of the flow; ring.go finalises its keys alike. -/
def ringPos (flow : Flow) : UInt32 := murmur3Finalise (flow.remoteIp4 ^^^ (flow.remotePort <<< 16))

def bisectRight (ring : RingMeta) (pos : UInt32) : Nat :=
  bisect (fun mid => decide (ring.key mid ≤ pos)) 17 0 ring.size.toNat

def startIndex (ring : RingMeta) (pos : UInt32) : Nat :=
  let idx := bisectRight ring pos
  if idx ≥ ring.size.toNat then 0 else idx

def probeLoop (k : Kernel) (idx : Nat) : Nat → Nat → Bool → Option (UInt32 × BackendEntry)
  | 0, _, _ => none
  | left + 1, probe, halfOpenUsed =>
    let vnodePos := k.ringMeta.key (idx + probe)
    match k.haRing.lookup vnodePos with
    | none => probeLoop k idx left (probe + 1) halfOpenUsed
    | some instId =>
      match k.instanceRegistry.lookup instId with
      | none => probeLoop k idx left (probe + 1) halfOpenUsed
      | some be =>
        if be.health = 0 then probeLoop k idx left (probe + 1) halfOpenUsed
        else
          match k.circuitState.lookup instId with
          | none => some (instId, be)
          | some cs =>
            if cs = circuitOpen then probeLoop k idx left (probe + 1) halfOpenUsed
            else if cs = circuitHalfOpen then
              -- the flag is set here, and the loop ends with this backend
              if halfOpenUsed then probeLoop k idx left (probe + 1) halfOpenUsed else some (instId, be)
            else some (instId, be)

def choose (k : Kernel) (cpu : Nat) (id : UInt32) (be : BackendEntry) : Kernel :=
  { k with
    selection := Function.update k.selection cpu ⟨id, be.ip, be.port⟩
    instanceRegistry := k.instanceRegistry.insert id { be with activeReqs := be.activeReqs + 1 } }

/-- lb_policy past its guard. -/
def selectBackend (k : Kernel) (cpu : Nat) (flow : Flow) : Kernel × Verdict :=
  if k.ringMeta.size = 0 then (k, .pass)
  else
    let maglevVal := Maglev.lookup k.maglevTable (ringPos flow)
    let firstInstId := if maglevVal ≠ 0 then maglevVal else 0
    let idx :=
      if firstInstId = 0 then startIndex k.ringMeta (ringPos flow)
      else startIndex k.ringMeta (ringPos flow)
    match probeLoop k idx 64 0 false with
    | none => (k, .pass)
    | some (chosenId, be) =>
      let k := choose k cpu chosenId be
      -- chosen_id is also the mark of no choice
      if chosenId = 0 then (k, .pass) else (k, .tailCall progConnRelay)

def lbPolicy (k : Kernel) (cpu : Nat) (flow : Flow) : Kernel × Verdict :=
  match k.enter cpu with
  | none => (k, .pass)
  | some k => selectBackend k cpu flow

/-! ### The walk -/

/-- The instance behind a ring position, when lb_policy may route to it. -/
def admitted (k : Kernel) (key : UInt32) : Option (UInt32 × BackendEntry) :=
  match k.haRing.lookup key with
  | none => none
  | some id =>
    match k.instanceRegistry.lookup id with
    | none => none
    | some be =>
      if be.health ≠ 0 ∧ k.circuitState.lookup id ≠ some circuitOpen then some (id, be) else none

structure Admitted (k : Kernel) (key id : UInt32) (be : BackendEntry) : Prop where
  owner : k.haRing.lookup key = some id
  registered : k.instanceRegistry.lookup id = some be
  healthy : be.health ≠ 0
  admits : k.circuitState.lookup id ≠ some circuitOpen

theorem admittedIff {k : Kernel} {key id : UInt32} {be : BackendEntry} :
    admitted k key = some (id, be) ↔ Admitted k key id be := by
  constructor
  · intro found
    unfold admitted at found
    split at found <;> try contradiction
    rename_i owner
    split at found <;> try contradiction
    rename_i registered
    split at found <;> try contradiction
    rename_i admissible
    cases found
    exact ⟨owner, registered, admissible.1, admissible.2⟩
  · intro ⟨owner, registered, healthy, admits⟩
    simp only [admitted, owner, registered]
    exact if_pos ⟨healthy, admits⟩

/-- The entries lb_policy looks at, wherever the index leaves the ring. -/
def walk (k : Kernel) (flow : Flow) (i : Nat) : Option (UInt32 × BackendEntry) :=
  admitted k (k.ringMeta.key (startIndex k.ringMeta (ringPos flow) + i))

theorem probeStep (k : Kernel) (idx left probe : Nat) :
    probeLoop k idx (left + 1) probe false =
      (admitted k (k.ringMeta.key (idx + probe))).or
        (probeLoop k idx left (probe + 1) false) := by
  rw [probeLoop]
  unfold admitted
  split
  · rfl
  · split
    · rfl
    · rename_i be _
      by_cases sick : be.health = 0
      · rw [if_pos sick, if_neg fun both => both.1 sick]
        rfl
      · rw [if_neg sick]
        split
        · rename_i closed
          rw [if_pos ⟨sick, by rw [closed]; nofun⟩]
          rfl
        · rename_i cs found
          by_cases opened : cs = circuitOpen
          · rw [if_pos opened, if_neg fun both => both.2 (opened ▸ found)]
            rfl
          · have admits : k.circuitState.lookup _ ≠ some circuitOpen := fun same =>
              opened (Option.some.inj (found.symm.trans same))
            rw [if_neg opened, if_neg Bool.false_ne_true, ite_self, if_pos ⟨sick, admits⟩]
            rfl

theorem probeFirst {k : Kernel} {idx left probe : Nat} {id : UInt32} {be : BackendEntry} :
    probeLoop k idx left probe false = some (id, be) ↔
      ∃ i, First (fun i => admitted k (k.ringMeta.key (idx + (probe + i)))) left i (id, be) := by
  induction left generalizing probe with
  | zero => exact iff_of_false nofun fun ⟨_, first⟩ => absurd first.inside (Nat.not_lt_zero _)
  | succ left ih =>
    rw [probeStep]
    cases here : admitted k (k.ringMeta.key (idx + probe)) with
    | some found =>
      rw [Option.some_or, Option.some_inj]
      constructor
      · intro same
        exact ⟨0, Nat.succ_pos left, same ▸ here, fun _ before => absurd before (Nat.not_lt_zero _)⟩
      · intro ⟨i, first⟩
        exact (firstUnique ⟨Nat.succ_pos left, here, fun _ before => absurd before (Nat.not_lt_zero _)⟩
          first).2
    | none =>
      have shifted : (fun i => admitted k (k.ringMeta.key (idx + (probe + (i + 1))))) =
          fun i => admitted k (k.ringMeta.key (idx + (probe + 1 + i))) := by
        funext i
        rw [Nat.add_right_comm, Nat.add_assoc]
      rw [Option.none_or, ih, ← shifted]
      constructor
      · intro ⟨i, first⟩
        exact ⟨i + 1, (firstTail here).mpr first⟩
      · intro ⟨i, first⟩
        cases i with
        | zero => cases here.symm.trans first.hit
        | succ i => exact ⟨i, (firstTail here).mp first⟩

/-! ### What an invocation does -/

/-- When lb_policy routes a flow to `id`: the guard lets it in, the ring has entries, and the
first admitted one of the 64 it looks at is of `id`. -/
structure Picks (k : Kernel) (cpu : Nat) (flow : Flow) (id : UInt32) (be : BackendEntry) : Prop where
  shallow : k.tailDepth cpu < tailCallDepthMax
  ring : k.ringMeta.size ≠ 0
  first : ∃ i, First (walk k flow) 64 i (id, be)

theorem picksUnique {k : Kernel} {cpu : Nat} {flow : Flow} {id id' : UInt32} {be be' : BackendEntry}
    (left : Picks k cpu flow id be) (right : Picks k cpu flow id' be') : id = id' ∧ be = be' := by
  obtain ⟨_, first⟩ := left.first
  obtain ⟨_, second⟩ := right.first
  cases (firstUnique first second).2
  exact ⟨rfl, rfl⟩

theorem picksAdmitted {k : Kernel} {cpu : Nat} {flow : Flow} {id : UInt32} {be : BackendEntry}
    (picks : Picks k cpu flow id be) : ∃ key, Admitted k key id be := by
  obtain ⟨i, first⟩ := picks.first
  exact ⟨_, admittedIff.mp first.hit⟩

theorem selectBackendEq {k : Kernel} (cpu : Nat) (flow : Flow) (ring : k.ringMeta.size ≠ 0) :
    selectBackend k cpu flow =
      match probeLoop k (startIndex k.ringMeta (ringPos flow)) 64 0 false with
      | none => (k, .pass)
      | some (id, be) =>
        (choose k cpu id be, if id = 0 then .pass else .tailCall progConnRelay) := by
  -- both ways to the start index are the same bisection
  simp only [selectBackend, if_neg ring, ite_self]
  split
  · rfl
  · split <;> rfl

theorem walkProbes {k : Kernel} {flow : Flow} {id : UInt32} {be : BackendEntry} :
    probeLoop k (startIndex k.ringMeta (ringPos flow)) 64 0 false = some (id, be) ↔
      ∃ i, First (walk k flow) 64 i (id, be) := by
  rw [probeFirst]
  simp only [Nat.zero_add]
  rfl

theorem lbPolicyShallow {k : Kernel} {cpu : Nat} (flow : Flow)
    (shallow : k.tailDepth cpu < tailCallDepthMax) :
    lbPolicy k cpu flow = selectBackend (k.deeper cpu) cpu flow := by
  rw [lbPolicy, enterSome shallow]

theorem lbPolicyPicks {k : Kernel} {cpu : Nat} {flow : Flow} {id : UInt32} {be : BackendEntry}
    (picks : Picks k cpu flow id be) : lbPolicy k cpu flow =
      (choose (k.deeper cpu) cpu id be, if id = 0 then .pass else .tailCall progConnRelay) := by
  have probed : probeLoop (k.deeper cpu) (startIndex k.ringMeta (ringPos flow)) 64 0 false =
      some (id, be) := walkProbes.mpr picks.first
  have chosen := selectBackendEq (k := k.deeper cpu) cpu flow picks.ring
  rw [show (k.deeper cpu).ringMeta = k.ringMeta from rfl, probed] at chosen
  rw [lbPolicyShallow flow picks.shallow, chosen]

structure Idle (k next : Kernel) : Prop where
  instanceRegistry : next.instanceRegistry = k.instanceRegistry
  circuitState : next.circuitState = k.circuitState
  selection : next.selection = k.selection

theorem lbPolicyIdle {k : Kernel} {cpu : Nat} {flow : Flow} (none_ : ∀ id be, ¬ Picks k cpu flow id be) :
    Idle k (lbPolicy k cpu flow).1 ∧ (lbPolicy k cpu flow).2 = .pass := by
  by_cases shallow : k.tailDepth cpu < tailCallDepthMax
  · rw [lbPolicyShallow flow shallow]
    by_cases empty : k.ringMeta.size = 0
    · rw [show selectBackend (k.deeper cpu) cpu flow = (k.deeper cpu, .pass) from if_pos empty]
      exact ⟨⟨rfl, rfl, rfl⟩, rfl⟩
    · have missed : probeLoop (k.deeper cpu) (startIndex k.ringMeta (ringPos flow)) 64 0 false = none := by
        refine Option.eq_none_iff_forall_ne_some.mpr fun chosen probed => ?_
        exact none_ chosen.1 chosen.2 ⟨shallow, empty, walkProbes.mp probed⟩
      have same := selectBackendEq (k := k.deeper cpu) cpu flow empty
      rw [show (k.deeper cpu).ringMeta = k.ringMeta from rfl, missed] at same
      rw [same]
      exact ⟨⟨rfl, rfl, rfl⟩, rfl⟩
  · rw [lbPolicy, enterNone shallow]
    exact ⟨⟨rfl, rfl, rfl⟩, rfl⟩

/-- The selection as a reader of the maps sees it: the record names the backend, and the
backend has one more active request. -/
structure Picked (k next : Kernel) (cpu : Nat) (id : UInt32) (be : BackendEntry) : Prop where
  registered : k.instanceRegistry.lookup id = some be
  counted : next.instanceRegistry =
    k.instanceRegistry.insert id { be with activeReqs := be.activeReqs + 1 }
  recorded : next.selection = Function.update k.selection cpu ⟨id, be.ip, be.port⟩

theorem countedOther {be : BackendEntry} : { be with activeReqs := be.activeReqs + 1 } ≠ be := by
  intro same
  have counts := congrArg BackendEntry.activeReqs same
  dsimp only at counts
  grind

theorem pickedExact {k : Kernel} {cpu : Nat} {flow : Flow} {id : UInt32} {be : BackendEntry} :
    Picked k (lbPolicy k cpu flow).1 cpu id be ↔ Picks k cpu flow id be := by
  constructor
  · intro ⟨registered, counted, _⟩
    have here := congrArg (AList.lookup id) counted
    rw [AList.lookup_insert] at here
    by_cases some_ : ∃ id' be', Picks k cpu flow id' be'
    · obtain ⟨id', be', picks⟩ := some_
      by_cases own : id = id'
      · subst own
        obtain ⟨_, admitted⟩ := picksAdmitted picks
        cases registered.symm.trans admitted.registered
        exact picks
      · rw [lbPolicyPicks picks] at here
        dsimp only [choose, Kernel.deeper] at here
        rw [AList.lookup_insert_ne own, registered] at here
        exact absurd (Option.some.inj here).symm countedOther
    · have idle := (lbPolicyIdle fun id be picks => some_ ⟨id, be, picks⟩).1
      rw [idle.instanceRegistry, registered] at here
      exact absurd (Option.some.inj here).symm countedOther
  · intro picks
    obtain ⟨_, admitted⟩ := picksAdmitted picks
    rw [lbPolicyPicks picks]
    exact ⟨admitted.registered, rfl, rfl⟩

/-! ### A client -/

def client : Flow := ⟨0x0a000001, 40000⟩

def sole (id : UInt32) : Kernel := loaded [(10, id)] [(id, backendOf 1)]

theorem solePicks {id : UInt32} (here : walk (sole id) client 0 = some (id, backendOf 1)) :
    Picks (sole id) 0 client id (backendOf 1) where
  shallow := (by decide : (2 : UInt32) < tailCallDepthMax)
  ring := (by decide : (ringOf [10]).size ≠ 0)
  first := ⟨0, by decide, here, nofun⟩

end OmegaLb.LbPolicy
