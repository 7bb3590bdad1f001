import OmegaLb.LbPolicy

/-! lb_policy.bpf.c past its guard, one read of a map after the other: between two of them other CPUs
and the control plane may write. Undisturbed, the reads choose what the invocation taken at once does. -/
namespace OmegaLb.PolicySteps
open CircularProbe KernelMaps LbPolicy
open Reconcile (BackendEntry)

/-- The variables of the probe loop. -/
structure Cursor where
  idx : Nat
  probe : Nat
  halfOpenUsed : Bool
  deriving DecidableEq, Repr

/-- What is read next: the Maglev slot, the size that bounds the bisection, one of its keys, the size
again, the key of a slot, its owner, the owner's entry, and its circuit. -/
inductive Walk where
  | candidate (pos : UInt32)
  | sizing (pos : UInt32)
  | bisecting (left lo hi : Nat) (pos : UInt32)
  | bounding (lo : Nat)
  | slot (c : Cursor)
  | owner (c : Cursor) (vnodePos : UInt32)
  | backend (c : Cursor) (instId : UInt32)
  | circuit (c : Cursor) (instId : UInt32) (be : BackendEntry)
  deriving DecidableEq, Repr

inductive Found where
  | still (walk : Walk)
  | missed
  | chosen (instId : UInt32) (be : BackendEntry)
  deriving DecidableEq, Repr

def startWalk (k : Kernel) (flow : Flow) : Found :=
  if k.ringMeta.size = 0 then .missed else .still (.candidate (ringPos flow))

/-- The loop goes on with the next probe, if there is one. -/
def Cursor.next (c : Cursor) : Found :=
  if c.probe + 1 < 64 then .still (.slot { c with probe := c.probe + 1 }) else .missed

def Walk.look (k : Kernel) : Walk → Found
  | .candidate pos =>
    let maglevVal := Maglev.lookup k.maglevTable pos
    let firstInstId := if maglevVal ≠ 0 then maglevVal else 0
    -- with a candidate or without one, the bisection is the same
    if firstInstId = 0 then .still (.sizing pos) else .still (.sizing pos)
  | .sizing pos => .still (.bisecting 17 0 k.ringMeta.size.toNat pos)
  | .bisecting 0 lo _ _ => .still (.bounding lo)
  | .bisecting (left + 1) lo hi pos =>
    if lo ≥ hi then .still (.bounding lo)
    else
      let mid := lo + (hi - lo) / 2
      if k.ringMeta.key mid ≤ pos then .still (.bisecting left (mid + 1) hi pos)
      else .still (.bisecting left lo mid pos)
  | .bounding lo => .still (.slot ⟨if lo ≥ k.ringMeta.size.toNat then 0 else lo, 0, false⟩)
  | .slot c => .still (.owner c (k.ringMeta.key (c.idx + c.probe)))
  | .owner c vnodePos =>
    match k.haRing.lookup vnodePos with
    | none => c.next
    | some instId => .still (.backend c instId)
  | .backend c instId =>
    match k.instanceRegistry.lookup instId with
    | none => c.next
    | some be => if be.health = 0 then c.next else .still (.circuit c instId be)
  | .circuit c instId be =>
    match k.circuitState.lookup instId with
    | none => .chosen instId be
    | some cs =>
      if cs = circuitOpen then c.next
      else if cs = circuitHalfOpen then if c.halfOpenUsed then c.next else .chosen instId be
      else .chosen instId be

/-- The writes of a choice. The entry found may have been replaced since; what is counted is then the
one in its place, as the control plane may write any count. -/
def pick (k : Kernel) (cpu : Nat) (id : UInt32) (be : BackendEntry) : Kernel :=
  { k with
    selection := Function.update k.selection cpu ⟨id, be.ip, be.port⟩
    instanceRegistry := match k.instanceRegistry.lookup id with
      | none => k.instanceRegistry
      | some now => k.instanceRegistry.insert id { now with activeReqs := now.activeReqs + 1 } }

/-! ### What a read tells -/

/-- What the maps were like at a read that has come to this. -/
def Read (k : Kernel) (walk : Walk) : Found → Prop
  | .still (.owner _ vnodePos) => ∃ i, k.ringMeta.key i = vnodePos
  | .still (.backend _ id) => ∃ c vnodePos, walk = .owner c vnodePos ∧ k.haRing.lookup vnodePos = some id
  | .still (.circuit _ id be) =>
    ∃ c, walk = .backend c id ∧ k.instanceRegistry.lookup id = some be ∧ be.health ≠ 0
  | .chosen id be => ∃ c, walk = .circuit c id be ∧ k.circuitState.lookup id ≠ some circuitOpen
  | _ => True

theorem nextRead (k : Kernel) (walk : Walk) (c : Cursor) : Read k walk c.next := by
  unfold Cursor.next
  split <;> trivial

theorem lookCandidate (k : Kernel) (pos : UInt32) : (Walk.candidate pos).look k = .still (.sizing pos) := by
  rw [Walk.look]
  exact ite_self _

theorem lookRead (k : Kernel) (walk : Walk) : Read k walk (walk.look k) := by
  cases walk with
  | candidate pos => rw [lookCandidate]; trivial
  | sizing pos => trivial
  | bisecting left lo hi pos =>
    cases left with
    | zero => trivial
    | succ left =>
      rw [Walk.look]
      split
      · trivial
      · dsimp only
        split <;> trivial
  | bounding lo => trivial
  | slot c => exact ⟨_, rfl⟩
  | owner c vnodePos =>
    rw [Walk.look]
    split
    · exact nextRead ..
    · exact ⟨c, vnodePos, rfl, ‹_›⟩
  | backend c id =>
    rw [Walk.look]
    split
    · exact nextRead ..
    · split
      · exact nextRead ..
      · exact ⟨c, rfl, ‹_›, ‹_›⟩
  | circuit c id be =>
    rw [Walk.look]
    split
    · rename_i closed
      exact ⟨c, rfl, by rw [closed]; nofun⟩
    · rename_i cs found
      split
      · exact nextRead ..
      · rename_i admits
        have unopened : k.circuitState.lookup id ≠ some circuitOpen := fun same =>
          admits (Option.some.inj (found.symm.trans same))
        split
        · split
          · exact nextRead ..
          · exact ⟨c, rfl, unopened⟩
        · exact ⟨c, rfl, unopened⟩

/-! ### Undisturbed -/

/-- The reads one after the other, in maps that stay as they are. -/
def undisturbed (k : Kernel) : Nat → Found → Found
  | steps + 1, .still walk => undisturbed k steps (walk.look k)
  | _, found => found

def ComesTo (k : Kernel) (a b : Found) : Prop := ∃ steps, undisturbed k steps a = b

def resultOf : Option (UInt32 × BackendEntry) → Found
  | none => .missed
  | some (id, be) => .chosen id be

section
variable {k : Kernel}

theorem comesSelf (a : Found) : ComesTo k a a := ⟨0, by cases a <;> rfl⟩

theorem comesLook {walk : Walk} {b : Found} (rest : ComesTo k (walk.look k) b) : ComesTo k (.still walk) b := by
  obtain ⟨steps, same⟩ := rest
  exact ⟨steps + 1, same⟩

theorem bisectComes (left lo hi : Nat) (pos : UInt32) {b : Found}
    (rest : ComesTo k (.still (.bounding (bisect (fun mid => decide (k.ringMeta.key mid ≤ pos)) left lo hi))) b) :
    ComesTo k (.still (.bisecting left lo hi pos)) b := by
  induction left generalizing lo hi with
  | zero => exact comesLook rest
  | succ left ih =>
    refine comesLook ?_
    rw [bisect] at rest
    rw [Walk.look]
    split
    · rename_i met
      rwa [if_pos met] at rest
    · rename_i apart
      rw [if_neg apart] at rest
      dsimp only at rest ⊢
      split
      · rename_i low
        rw [if_pos (decide_eq_true low)] at rest
        exact ih _ _ rest
      · rename_i high
        rw [if_neg (by simpa using high)] at rest
        exact ih _ _ rest

theorem probesCome (idx left probe : Nat) (used : Bool) (fits : probe + left = 64) (some_ : 0 < left) :
    ComesTo k (.still (.slot ⟨idx, probe, used⟩)) (resultOf (probeLoop k idx left probe used)) := by
  induction left generalizing probe with
  | zero => exact absurd some_ (Nat.lt_irrefl 0)
  | succ left ih =>
    have goesOn : ComesTo k (Cursor.next ⟨idx, probe, used⟩) (resultOf (probeLoop k idx left (probe + 1) used)) := by
      rw [Cursor.next]
      by_cases last : left = 0
      · subst last
        rw [if_neg (by dsimp only; omega)]
        exact comesSelf _
      · rw [if_pos (by dsimp only; omega)]
        exact ih (probe + 1) (by omega) (Nat.pos_of_ne_zero last)
    refine comesLook (comesLook ?_)
    dsimp only
    rw [probeLoop, Walk.look]
    cases k.haRing.lookup (k.ringMeta.key (idx + probe)) with
    | none => exact goesOn
    | some instId =>
      refine comesLook ?_
      rw [Walk.look]
      dsimp only
      cases k.instanceRegistry.lookup instId with
      | none => exact goesOn
      | some be =>
        dsimp only
        by_cases sick : be.health = 0
        · rw [if_pos sick, if_pos sick]
          exact goesOn
        · rw [if_neg sick, if_neg sick]
          refine comesLook ?_
          rw [Walk.look]
          cases k.circuitState.lookup instId with
          | none => exact comesSelf _
          | some cs =>
            dsimp only
            split_ifs
            · exact goesOn
            · exact goesOn
            · exact comesSelf _
            · exact comesSelf _

end

theorem walkUndisturbed (k : Kernel) (flow : Flow) : ComesTo k (startWalk k flow)
    (if k.ringMeta.size = 0 then .missed
      else resultOf (probeLoop k (startIndex k.ringMeta (ringPos flow)) 64 0 false)) := by
  unfold startWalk
  split
  · exact comesSelf _
  · refine comesLook ?_
    rw [lookCandidate]
    refine comesLook (bisectComes _ _ _ _ (comesLook ?_))
    exact probesCome _ 64 0 false rfl (by decide)

theorem pickChoose {k : Kernel} {id : UInt32} {be : BackendEntry} (cpu : Nat)
    (found : k.instanceRegistry.lookup id = some be) : pick k cpu id be = choose k cpu id be := by
  rw [pick, choose, found]

theorem probeRegistered {k : Kernel} {idx : Nat} {id : UInt32} {be : BackendEntry}
    (found : probeLoop k idx 64 0 false = some (id, be)) : k.instanceRegistry.lookup id = some be := by
  obtain ⟨_, first⟩ := probeFirst.mp found
  exact (admittedIff.mp first.hit).registered

/-- What the program leaves and returns, once its reads have come to an end. -/
def Found.returns (k : Kernel) (cpu : Nat) : Found → Option (Kernel × Verdict)
  | .still _ => none
  | .missed => some (k, .pass)
  | .chosen id be => some (pick k cpu id be, if id = 0 then .pass else .tailCall progConnRelay)

/-- Nothing written meanwhile, lb_policy does what it does when it is taken at once. -/
theorem policyUndisturbed (k : Kernel) (cpu : Nat) (flow : Flow) :
    ∃ steps, (undisturbed k steps (startWalk k flow)).returns k cpu = some (selectBackend k cpu flow) := by
  obtain ⟨steps, comes⟩ := walkUndisturbed k flow
  refine ⟨steps, ?_⟩
  rw [comes]
  by_cases empty : k.ringMeta.size = 0
  · rw [if_pos empty, selectBackend, if_pos empty]
    rfl
  · rw [if_neg empty, selectBackendEq cpu flow empty]
    cases found : probeLoop k (startIndex k.ringMeta (ringPos flow)) 64 0 false with
    | none => rfl
    | some choice => exact congrArg some (Prod.ext (pickChoose cpu (probeRegistered found)) rfl)

end OmegaLb.PolicySteps
