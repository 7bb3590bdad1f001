import OmegaLb.BoundedRing
import OmegaLb.CbfShedding
import Mathlib.Data.List.GetD

/-! SafetyMonitor of cbf_runtime.py: what its bounded logs hold after any sequence of steps. The
vectors of a step have one entry for each backend of the monitor. -/
namespace OmegaLb.CbfRuntime
open BoundedRing (lastOf)
open Simplex (OnSimplex)

section Model
variable {K : Type} [Field K] [LinearOrder K]

structure CBFViolation (K : Type) where
  timestamp : K
  backendId : Nat
  load : K
  cap : K
  weightBefore : K
  weightAfter : K
  deriving DecidableEq, Repr

structure SafetyMonitor (K : Type) where
  n : Nat
  projector : CBFProjector K
  historyLen : Nat
  vhist : Nat → List Bool
  vlog : List (CBFViolation K)
  totalProjections : Nat
  totalViolations : Nat
  totalIters : Nat

def SafetyMonitor.init (n : Nat) (projector : CBFProjector K) (historyLen : Nat) : SafetyMonitor K :=
  ⟨n, projector, historyLen, fun _ => [], [], 0, 0, 0⟩

/-- append of a deque with a maxlen -/
def dequeAppend {α : Type} (maxlen : Nat) (xs : List α) (x : α) : List α :=
  if (xs ++ [x]).length > maxlen then (xs ++ [x]).drop 1 else xs ++ [x]

/-- What one call of step is given, and the times it reads. -/
structure Call (K : Type) where
  weights : List K
  loads : List K
  caps : Option (List K)
  clock : Nat → K

def Call.violation (c : Call K) (p : CBFProjector K) (result : CBFResult K) (i : Nat) : CBFViolation K where
  timestamp := c.clock i
  backendId := i
  load := c.loads.getD i 0
  cap := p.cap
  weightBefore := if c.weights.sum > 1 / 10 ^ 9 then c.weights.getD i 0 / c.weights.sum else 0
  weightAfter := result.weights.getD i 0

def SafetyMonitor.recordAt (c : Call K) (result : CBFResult K) (m : SafetyMonitor K) (i : Nat) : SafetyMonitor K :=
  let fired := result.fired.getD i false
  let m := { m with vhist := Function.update m.vhist i (dequeAppend m.historyLen (m.vhist i) fired) }
  if fired then
    { m with
      totalViolations := m.totalViolations + 1
      vlog := dequeAppend 1000 m.vlog (c.violation m.projector result i) }
  else m

def SafetyMonitor.step (m : SafetyMonitor K) (c : Call K) : SafetyMonitor K × List K × List Bool :=
  let result := m.projector.projectFull c.weights c.loads c.caps
  let m := { m with
    totalProjections := m.totalProjections + 1
    totalIters := m.totalIters + result.iterations }
  ((List.range m.n).foldl (SafetyMonitor.recordAt c result) m, result.weights, result.fired)

def SafetyMonitor.setCap (m : SafetyMonitor K) (cap : K) : SafetyMonitor K :=
  { m with projector := { m.projector with cap := cap } }

def SafetyMonitor.violationRate (m : SafetyMonitor K) (backendId : Nat) : K :=
  let hist := m.vhist backendId
  if hist = [] then 0 else (hist.count true : K) / hist.length

/-- `[-n:]`, which is the whole list where n is zero -/
def SafetyMonitor.recentViolations (m : SafetyMonitor K) (n : Nat) : List (CBFViolation K) :=
  (if n = 0 then m.vlog else lastOf n m.vlog).reverse

def SafetyMonitor.meanIters (m : SafetyMonitor K) : K :=
  if m.totalProjections > 0 then (m.totalIters : K) / m.totalProjections else 0

inductive Op (K : Type) where
  | step (call : Call K)
  | setCap (cap : K)

def SafetyMonitor.exec (m : SafetyMonitor K) : Op K → SafetyMonitor K
  | .step c => (m.step c).1
  | .setCap cap => m.setCap cap

def SafetyMonitor.run (m : SafetyMonitor K) (ops : List (Op K)) : SafetyMonitor K := ops.foldl SafetyMonitor.exec m

/-! ### What is promised -/

/-- The projector of each step that a sequence makes. -/
def steps (p : CBFProjector K) : List (Op K) → List (CBFProjector K × Call K)
  | [] => []
  | .step c :: ops => (p, c) :: steps p ops
  | .setCap cap :: ops => steps { p with cap := cap } ops

def resultOf (s : CBFProjector K × Call K) : CBFResult K := s.1.projectFull s.2.weights s.2.loads s.2.caps

def flagOf (i : Nat) (s : CBFProjector K × Call K) : Bool := (resultOf s).fired.getD i false

def violationsOf (n : Nat) (s : CBFProjector K × Call K) : List (CBFViolation K) :=
  ((List.range n).filter fun i => flagOf i s).map (s.2.violation s.1 (resultOf s))

structure Records (past : List (CBFProjector K × Call K)) (m : SafetyMonitor K) : Prop where
  projections : m.totalProjections = past.length
  iterations : m.totalIters = (past.map fun s => (resultOf s).iterations).sum
  violations : m.totalViolations = (past.flatMap (violationsOf m.n)).length
  log : m.vlog = lastOf 1000 (past.flatMap (violationsOf m.n))
  history : ∀ i, i < m.n → m.vhist i = lastOf m.historyLen (past.map (flagOf i))

def Over (s : CBFProjector K × Call K) (i : Nat) : Prop :=
  (s.1.limits s.2.weights.length s.2.caps).getD i 0 < s.2.loads.getD i 0

structure Aligned (n : Nat) (c : Call K) : Prop where
  weights : c.weights.length = n
  loads : c.loads.length = n
  caps : ∀ caps, c.caps = some caps → caps.length = n

/-! ### What one step flags -/

variable {n : Nat} {p : CBFProjector K} {c : Call K}

omit [Field K] [LinearOrder K] in
theorem orIdle {fired v : List Bool} (quiet : v.any id = false) (aligned : fired.length = v.length) :
    List.zipWith (· || ·) fired v = fired := by
  refine List.ext_getElem (by simp [aligned]) fun i _ inside => ?_
  have off : v[i] = false := by simpa using List.any_eq_false.mp quiet v[i] (List.getElem_mem _)
  rw [List.getElem_zipWith, off, Bool.or_false]

omit [Field K] [LinearOrder K] in
theorem orTwice (fired v : List Bool) :
    List.zipWith (· || ·) (List.zipWith (· || ·) fired v) v = List.zipWith (· || ·) fired v := by
  refine List.ext_getElem (by simp) fun i _ _ => ?_
  rw [List.getElem_zipWith, List.getElem_zipWith, Bool.or_assoc, Bool.or_self]

/-- Every round finds the same backends over. -/
theorem loopFired (p : CBFProjector K) (h : List K) (left iters : Nat) (w : List K) {fired : List Bool}
    (aligned : fired.length = h.length) : (p.loop h (left + 1) iters w fired).fired =
      List.zipWith (· || ·) fired (h.map fun x => decide (x < 0)) := by
  generalize marks : (h.map fun x => decide (x < 0)) = v
  have length : fired.length = v.length := by rw [aligned, ← marks, List.length_map]
  induction left generalizing iters w fired with
  | zero =>
    rw [CBFProjector.loop, marks]
    dsimp only
    split
    · split <;> rfl
    · rename_i quiet
      exact (orIdle (Bool.eq_false_iff.mpr quiet) length).symm
  | succ left ih =>
    rw [CBFProjector.loop, marks]
    dsimp only
    split
    · split
      · rfl
      · have kept : (List.zipWith (· || ·) fired v).length = fired.length := by simp [length]
        rw [ih _ _ (kept.trans aligned) (kept.trans length), orTwice]
    · rename_i quiet
      exact (orIdle (Bool.eq_false_iff.mpr quiet) length).symm

/-! ### What one step records -/

omit [Field K] [LinearOrder K] in
theorem appendLast {α : Type} (maxlen : Nat) (xs : List α) (x : α) :
    dequeAppend maxlen (lastOf maxlen xs) x = lastOf maxlen (xs ++ [x]) :=
  (BoundedRing.lastPush maxlen xs x).symm

/-- What recordAt leaves alone. -/
def SafetyMonitor.rest (m : SafetyMonitor K) : Nat × CBFProjector K × Nat × Nat × Nat :=
  (m.n, m.projector, m.historyLen, m.totalProjections, m.totalIters)

theorem restAt (c : Call K) (result : CBFResult K) (m : SafetyMonitor K) (i : Nat) :
    (m.recordAt c result i).rest = m.rest := by
  unfold SafetyMonitor.recordAt
  dsimp only
  split <;> rfl

/-- What the first backends of a step have added to a monitor. -/
structure Recorded (c : Call K) (result : CBFResult K) (m : SafetyMonitor K) (k : Nat) (after : SafetyMonitor K) :
    Prop where
  same : after.rest = m.rest
  violations : after.totalViolations =
    m.totalViolations + ((List.range k).filter fun i => result.fired.getD i false).length
  log : ∀ older, m.vlog = lastOf 1000 older → after.vlog = lastOf 1000 (older ++
    ((List.range k).filter fun i => result.fired.getD i false).map (c.violation m.projector result))
  history : ∀ i, after.vhist i =
    if i < k then dequeAppend m.historyLen (m.vhist i) (result.fired.getD i false) else m.vhist i

theorem recordsFirst (c : Call K) (result : CBFResult K) (m : SafetyMonitor K) (k : Nat) :
    Recorded c result m k ((List.range k).foldl (SafetyMonitor.recordAt c result) m) := by
  induction k with
  | zero => exact ⟨rfl, rfl, fun older before => by simpa using before, fun _ => rfl⟩
  | succ k ih =>
    rw [List.range_succ, List.foldl_append, List.foldl_cons, List.foldl_nil]
    generalize (List.range k).foldl (SafetyMonitor.recordAt c result) m = after at ih
    obtain ⟨same, violations, log, history⟩ := ih
    have projector : after.projector = m.projector := congrArg (fun rest => rest.2.1) same
    have historyLen : after.historyLen = m.historyLen := congrArg (fun rest => rest.2.2.1) same
    have own := history k
    rw [if_neg (Nat.lt_irrefl k)] at own
    -- the round writes the deque of backend k alone, and its log only where its flag is set
    have written (i : Nat) : Function.update after.vhist k (dequeAppend after.historyLen (after.vhist k)
        (result.fired.getD k false)) i =
        if i < k + 1 then dequeAppend m.historyLen (m.vhist i) (result.fired.getD i false) else m.vhist i := by
      by_cases here : i = k
      · subst here
        rw [Function.update_self, if_pos (Nat.lt_succ_self i), own, historyLen]
      · rw [Function.update_of_ne here, history i]
        by_cases before : i < k
        · rw [if_pos before, if_pos (by omega)]
        · rw [if_neg before, if_neg (by omega)]
    have marked : (List.range (k + 1)).filter (fun i => result.fired.getD i false) =
        (List.range k).filter (fun i => result.fired.getD i false) ++
          if result.fired.getD k false then [k] else [] := by
      rw [List.range_succ, List.filter_append, List.filter_singleton]
      cases result.fired.getD k false <;> rfl
    have kept := (restAt c result after k).trans same
    unfold SafetyMonitor.recordAt at kept ⊢
    cases fired : result.fired.getD k false with
    | false =>
      rw [fired] at written marked kept
      rw [if_neg Bool.false_ne_true, List.append_nil] at marked
      refine ⟨kept, ?_, fun older before => ?_, written⟩
      · rw [marked]
        exact violations
      · rw [marked]
        exact log older before
    | true =>
      rw [fired] at written marked kept
      rw [if_pos rfl] at marked
      refine ⟨kept, ?_, fun older before => ?_, written⟩
      · rw [marked, List.length_append, ← Nat.add_assoc, ← violations]
        rfl
      · rw [marked, List.map_append, ← List.append_assoc, List.map_singleton, ← appendLast, ← log older before,
          ← projector]
        rfl

/-! ### Runs -/

theorem stepRecords {past : List (CBFProjector K × Call K)} {m : SafetyMonitor K} (records : Records past m)
    (c : Call K) : Records (past ++ [(m.projector, c)]) (m.step c).1 ∧ (m.step c).1.projector = m.projector := by
  have recorded := recordsFirst c (resultOf (m.projector, c)) { m with
    totalProjections := m.totalProjections + 1
    totalIters := m.totalIters + (resultOf (m.projector, c)).iterations } m.n
  change Recorded c _ _ _ (m.step c).1 at recorded
  generalize (m.step c).1 = after at recorded
  obtain ⟨same, violations, log, history⟩ := recorded
  have size : after.n = m.n := congrArg Prod.fst same
  have projector : after.projector = m.projector := congrArg (fun rest => rest.2.1) same
  have historyLen : after.historyLen = m.historyLen := congrArg (fun rest => rest.2.2.1) same
  have projections : after.totalProjections = m.totalProjections + 1 := congrArg (fun rest => rest.2.2.2.1) same
  have iterations : after.totalIters = m.totalIters + (resultOf (m.projector, c)).iterations :=
    congrArg (fun rest => rest.2.2.2.2) same
  refine ⟨⟨?_, ?_, ?_, ?_, fun i inside => ?_⟩, projector⟩
  · rw [projections, records.projections, List.length_append]
    rfl
  · rw [iterations, records.iterations, List.map_append, List.sum_append, List.map_singleton, List.sum_singleton]
  · rw [violations, records.violations, size, List.flatMap_append, List.flatMap_singleton, List.length_append,
      violationsOf, List.length_map]
    rfl
  · rw [log _ records.log, size, List.flatMap_append, List.flatMap_singleton]
    rfl
  · rw [size] at inside
    rw [history, if_pos inside, historyLen, List.map_append, List.map_singleton, ← appendLast,
      ← records.history i inside]
    rfl

theorem runRecords {past : List (CBFProjector K × Call K)} {m : SafetyMonitor K} (records : Records past m)
    (ops : List (Op K)) : Records (past ++ steps m.projector ops) (m.run ops) := by
  induction ops generalizing past m with
  | nil => simpa [steps, SafetyMonitor.run] using records
  | cons op ops ih =>
    cases op with
    | step c =>
      obtain ⟨next, projector⟩ := stepRecords records c
      have rest := ih next
      rw [projector, List.append_assoc] at rest
      exact rest
    | setCap cap => exact ih (m := m.setCap cap) ⟨records.projections, records.iterations, records.violations,
        records.log, records.history⟩

omit [Field K] [LinearOrder K] in
theorem stepsBudget {p : CBFProjector K} {ops : List (Op K)} {s : CBFProjector K × Call K} (taken : s ∈ steps p ops) :
    s.1.maxIter = p.maxIter := by
  induction ops generalizing p with
  | nil => cases taken
  | cons op ops ih =>
    cases op with
    | step c =>
      rcases List.mem_cons.mp taken with rfl | later
      · rfl
      · exact ih later
    | setCap cap => exact ih (p := { p with cap := cap }) taken

/-- What audit shows of the log and of the iterations is of all steps so far. -/
theorem auditRecords {past : List (CBFProjector K × Call K)} {m : SafetyMonitor K} (records : Records past m) {k : Nat}
    (some_ : 0 < k) (short : k ≤ 1000) :
    m.recentViolations k = ((past.flatMap (violationsOf m.n)).reverse.take k) ∧
      m.meanIters = if past = [] then 0 else
        (((past.map fun s => (resultOf s).iterations).sum : Nat) : K) / past.length := by
  constructor
  · rw [SafetyMonitor.recentViolations, if_neg some_.ne', records.log, lastOf, lastOf, List.drop_drop, List.length_drop,
      List.take_reverse]
    congr 2
    omega
  · rw [SafetyMonitor.meanIters, records.projections, records.iterations]
    by_cases none_ : past = []
    · rw [if_pos none_, none_]
      exact if_neg (lt_irrefl 0)
    · rw [if_neg none_, if_pos (List.length_pos_iff.mpr none_)]

variable [IsStrictOrderedRing K]

theorem flagOver (iterates : 0 < p.maxIter) (aligned : Aligned n c) {i : Nat} (inside : i < n) :
    flagOf i (p, c) = true ↔ Over (p, c) i := by
  have capped : (p.limits c.weights.length c.caps).length = n := by
    unfold CBFProjector.limits
    cases given : c.caps with
    | none => simpa using aligned.weights
    | some caps => simpa using aligned.caps caps given
  generalize limits : p.limits c.weights.length c.caps = caps at capped
  have barriers : (barrier caps c.loads).length = n := by simp [barrier, capped, aligned.loads]
  obtain ⟨left, budget⟩ := Nat.exists_eq_succ_of_ne_zero (by omega : p.maxIter.toNat ≠ 0)
  have fired : (resultOf (p, c)).fired =
      List.zipWith (· || ·) (List.replicate c.weights.length false) ((barrier caps c.loads).map fun x => decide (x < 0)) := by
    rw [← limits, ← loopFired p _ left 0 (startWeights c.weights) (by
      rw [limits, barriers, List.length_replicate, aligned.weights])]
    unfold resultOf CBFProjector.projectFull
    rw [budget]
    rfl
  have below : i < caps.length := capped.symm ▸ inside
  have loaded : i < c.loads.length := aligned.loads.symm ▸ inside
  have flag : (List.zipWith (· || ·) (List.replicate c.weights.length false)
      ((barrier caps c.loads).map fun x => decide (x < 0)))[i]? = some (decide (caps[i] - c.loads[i] < 0)) := by
    simp [barrier, below, loaded, aligned.weights, inside]
  unfold flagOf Over
  rw [fired, limits, List.getD_eq_getElem?_getD, flag, List.getD_eq_getElem _ _ below,
    List.getD_eq_getElem _ _ loaded]
  simp

theorem rateRange (m : SafetyMonitor K) (i : Nat) : 0 ≤ m.violationRate i ∧ m.violationRate i ≤ 1 := by
  unfold SafetyMonitor.violationRate
  dsimp only
  split
  · exact ⟨le_rfl, zero_le_one⟩
  · have most : ((m.vhist i).count true : K) ≤ (m.vhist i).length := by exact_mod_cast List.count_le_length
    exact ⟨div_nonneg (Nat.cast_nonneg _) (Nat.cast_nonneg _), div_le_one_of_le₀ most (Nat.cast_nonneg _)⟩

/-- After any sequence of steps and caps the logs are the newest of all the violations, the counters
count them all, and a violation is a backend over the cap of its step. -/
theorem monitorExact (n : Nat) (p : CBFProjector K) (historyLen : Nat) (iterates : 0 < p.maxIter) (ops : List (Op K))
    (aligned : ∀ s ∈ steps p ops, Aligned n s.2) :
    Records (steps p ops) ((SafetyMonitor.init n p historyLen).run ops) ∧
    (∀ s ∈ steps p ops, ∀ i, i < n → (flagOf i s = true ↔ Over s i)) ∧
    ∀ i, 0 ≤ ((SafetyMonitor.init n p historyLen).run ops).violationRate i ∧
      ((SafetyMonitor.init n p historyLen).run ops).violationRate i ≤ 1 := by
  have empty : Records [] (SafetyMonitor.init n p historyLen) :=
    ⟨rfl, rfl, rfl, (List.drop_nil).symm, fun _ _ => (List.drop_nil).symm⟩
  refine ⟨runRecords empty ops, fun s taken i inside => ?_, fun i => rateRange _ i⟩
  exact flagOver (stepsBudget taken ▸ iterates) (aligned s taken) inside

end Model

def raisedCap : List (Op ℚ) := [.step ⟨[2, 1], [9 / 10, 1 / 10], none, fun _ => 0⟩, .setCap (19 / 20),
  .step ⟨[2, 1], [9 / 10, 1], none, fun _ => 1⟩]

theorem monitorExactRaised : Records (steps CBFProjector.init raisedCap) ((SafetyMonitor.init 2 .init 300).run raisedCap) :=
  (monitorExact 2 .init 300 (by decide) raisedCap fun s taken => by
    rcases List.mem_cons.mp taken with rfl | later
    · exact ⟨rfl, rfl, nofun⟩
    · cases List.mem_singleton.mp later
      exact ⟨rfl, rfl, nofun⟩).1

end OmegaLb.CbfRuntime
