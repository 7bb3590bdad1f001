import OmegaLb.RingRoute
import OmegaLb.SlowStartRamp
import Mathlib.Algebra.Order.Floor.Ring

/-! Slow start over whole runs. Beside the manager stands what an observer of its calls counts for each
backend: the ticks that were not paused since it was registered, and the count written last. The ramp is
exact when the sum of the tick that completes it fits an int; otherwise that sum wraps below zero. -/
namespace OmegaLb.SlowStartProgress
open RingManager RingInvariant SlowStartTable RingRoute
open SlowStartRamp (advances tickBatch beginBatch beginEntry beginKnown)
open StepRun (Run)
open Config (RingConfig load)

variable {F : Type}

structure Progress where
  ticks : Nat
  written : Option Int
  deriving DecidableEq, Repr

structure World (F : Type) where
  ring : Manager F
  progress : UInt32 → Option Progress

def start (m : Manager F) : World F := ⟨m, fun _ => none⟩

def rampTarget (cfg : RingConfig F) : Int := if cfg.vnodesPerServer ≤ 0 then 150 else cfg.vnodesPerServer

theorem aimPositive (cfg : RingConfig F) : 1 ≤ rampTarget cfg := by
  unfold rampTarget
  split <;> omega

/-- The last of the calls that is about `id`, or else what was written before. -/
def lastCall (id : UInt32) (before : Option Int) (calls : List (UInt32 × Int)) : Option Int :=
  calls.foldl (fun written call => if call.1 = id then some call.2 else written) before

section Step
variable [GoFloat F]

/-- What the loop of slowStartTick passes to SetVnodeCount when it comes to a backend. -/
def tickCall (errorRate : Option (UInt32 → F)) (k : UInt32) (v : Seen F) : Option Int :=
  v.entry.bind fun rs =>
    if GoFloat.gt (errorPct errorRate k) v.maxErrorPct then none else some (nextCount v.batchSize rs)

def tickRound (rt : Runtime) (errorRate : Option (UInt32 → F))
    (acc : (Manager F × List UInt32) × List (UInt32 × Int)) (id : UInt32) :
    (Manager F × List UInt32) × List (UInt32 × Int) :=
  let call := tickCall errorRate id (seen id acc.1)
  (tickOne rt errorRate acc.1 id, acc.2 ++ (call.map fun count => (id, count)).toList)

/-- The calls of SetVnodeCount that one tick makes, in their order. -/
def tickCalls (rt : Runtime) (m : Manager F) (errorRate : Option (UInt32 → F)) : List (UInt32 × Int) :=
  ((rt.keyOrder m.slowStart.restoring.keys).foldl (tickRound rt errorRate) ((m, []), [])).2

def observe (s : World F) (rt : Runtime) : Op F → UInt32 → Option Progress
  | .beginSlowStart id =>
    if id ∈ s.ring.slowStart.restoring then s.progress else Function.update s.progress id (some ⟨0, none⟩)
  | .cancelSlowStart id => Function.update s.progress id none
  | .slowStartTick errorRate => fun id => (s.progress id).map fun p =>
    { ticks := if advances s.ring errorRate id then p.ticks + 1 else p.ticks
      written := lastCall id p.written (tickCalls rt s.ring errorRate) }
  | _ => s.progress

def Step (s : World F) (e : Runtime × Op F) (t : World F) : Prop :=
  RingManager.Step s.ring e t.ring ∧ t.progress = observe s e.1 e.2

theorem stepTaken {s : World F} {rt : Runtime} {op : Op F} {next : Manager F}
    (taken : s.ring.apply rt op = .ok next) : Step s (rt, op) ⟨next, observe s rt op⟩ := ⟨taken, rfl⟩

/-! ### The calls of one tick -/

def seenCall (before : Option Int) (k : UInt32) (acc : (Manager F × List UInt32) × List (UInt32 × Int)) :
    Seen F × Option Int := (seen k acc.1, lastCall k before acc.2)

theorem lastCallAppend (id : UInt32) (before : Option Int) (calls more : List (UInt32 × Int)) :
    lastCall id before (calls ++ more) = lastCall id (lastCall id before calls) more :=
  List.foldl_append

theorem tickRoundElsewhere (rt : Runtime) (errorRate : Option (UInt32 → F)) (before : Option Int)
    (acc : (Manager F × List UInt32) × List (UInt32 × Int)) (j k : UInt32) (differs : k ≠ j) :
    seenCall before k (tickRound rt errorRate acc j) = seenCall before k acc := by
  have unseen (call : Option Int) (w : Option Int) :
      lastCall k w (call.map fun count => (j, count)).toList = w := by
    cases call with
    | none => rfl
    | some count => exact if_neg differs.symm
  simp only [seenCall, tickRound, lastCallAppend, unseen, tickOneElsewhere rt errorRate acc.1 j k differs]

theorem tickRoundHere (rt : Runtime) (errorRate : Option (UInt32 → F)) (before : Option Int)
    (acc : (Manager F × List UInt32) × List (UInt32 × Int)) (k : UInt32) :
    lastCall k before (tickRound rt errorRate acc k).2 =
      (tickCall errorRate k (seen k acc.1)).or (lastCall k before acc.2) := by
  simp only [tickRound, lastCallAppend]
  cases tickCall errorRate k (seen k acc.1) with
  | none => rfl
  | some count => exact if_pos rfl

theorem tickCallsLast (rt : Runtime) (m : Manager F) (errorRate : Option (UInt32 → F)) (k : UInt32)
    (before : Option Int) : lastCall k before (tickCalls rt m errorRate) =
      (tickCall errorRate k (seen k (m, []))).or before := by
  have keys := rt.keyOrderPerm m.slowStart.restoring.keys
  have other := tickRoundElsewhere rt errorRate before
  by_cases member : k ∈ rt.keyOrder m.slowStart.restoring.keys
  · have distinct := keys.nodup_iff.mpr m.slowStart.restoring.keys_nodup
    obtain ⟨u, same, after⟩ := foldOnce other distinct member ((m, []), [])
    obtain ⟨sameSeen, sameCall⟩ := Prod.mk.inj same
    have last := (Prod.mk.inj after).2
    rw [tickRoundHere, sameSeen, sameCall] at last
    exact last
  · have missing : m.slowStart.restoring.lookup k = none := by
      rw [AList.lookup_eq_none, AList.mem_keys, ← keys.mem_iff]
      exact member
    have untouched := foldElsewhere other member ((m, []), [])
    have last := (Prod.mk.inj untouched).2
    simp only [tickCall, seen, missing, Option.bind_none, Option.none_or]
    exact last

/-- A tick does to the backends what its calls do, one after the other. -/
theorem tickIsCalls (rt : Runtime) (m : Manager F) (errorRate : Option (UInt32 → F)) :
    (m.slowStartTick rt errorRate).backends =
      ((tickCalls rt m errorRate).foldl (fun n call => n.setVnodeCount rt call.1 call.2) m).backends := by
  have sameWrite {n o : Manager F} (same : n.backends = o.backends) (call : UInt32 × Int) :
      (n.setVnodeCount rt call.1 call.2).backends = (o.setVnodeCount rt call.1 call.2).backends := by
    unfold Manager.setVnodeCount Manager.setField
    rw [same]
    split
    · rfl
    · exact same
  have round (acc : (Manager F × List UInt32) × List (UInt32 × Int)) (id : UInt32)
      (held : acc.1.1.backends = (acc.2.foldl (fun n call => n.setVnodeCount rt call.1 call.2) m).backends) :
      (tickRound rt errorRate acc id).1.1.backends =
        ((tickRound rt errorRate acc id).2.foldl (fun n call => n.setVnodeCount rt call.1 call.2) m).backends := by
    obtain ⟨⟨n, done⟩, calls⟩ := acc
    rw [tickRound, List.foldl_append]
    cases found : n.slowStart.restoring.lookup id with
    | none =>
      rw [tickOneSkips rt errorRate done found]
      simpa [tickCall, seen, found] using held
    | some rs =>
      cases above : GoFloat.gt (errorPct errorRate id) n.slowStart.maxErrorPct with
      | true =>
        rw [tickOnePauses rt done found above]
        simpa [tickCall, seen, found, above, restored] using held
      | false =>
        rw [tickOneAdvances rt done found above]
        have called : tickCall errorRate id (seen id (n, done)) = some (nextCount n.slowStart.batchSize rs) := by
          simp [tickCall, seen, found, above]
        have unrestored (rs : RestoreState) : (restored n id rs).backends =
            (calls.foldl (fun n call => n.setVnodeCount rt call.1 call.2) m).backends := held
        rw [called]
        exact sameWrite (unrestored _) (id, nextCount n.slowStart.batchSize rs)
  have loop : (rt.keyOrder m.slowStart.restoring.keys).foldl (tickOne rt errorRate) (m, []) =
      ((rt.keyOrder m.slowStart.restoring.keys).foldl (tickRound rt errorRate) ((m, []), [])).1 :=
    @List.foldl_hom _ _ _ Prod.fst (tickRound rt errorRate) (tickOne rt errorRate) _ ((m, []), []) fun _ _ => rfl
  have all := List.foldlRecOn (motive := fun acc => acc.1.1.backends =
    (acc.2.foldl (fun n call => n.setVnodeCount rt call.1 call.2) m).backends)
    (rt.keyOrder m.slowStart.restoring.keys) (tickRound rt errorRate) (b := ((m, []), [])) rfl
    fun acc held id _ => round acc id held
  rw [← loop] at all
  exact all

/-! ### One backend of the table -/

/-- Where a backend stands: outside the table, `ticks` batches into its ramp, or done with it. -/
inductive Tracked (batch target : Int) : Option RestoreState → Option Progress → Prop where
  | outside : Tracked batch target none none
  | ramping {rs : RestoreState} {p : Progress} (aim : rs.targetVnodes = target)
      (current : rs.currentVnodes = p.ticks * batch) (short : p.ticks * batch < target)
      (written : p.written = if p.ticks = 0 then none else some (p.ticks * batch)) :
      Tracked batch target (some rs) (some p)
  | complete {p : Progress} (before : p.ticks * batch < target + batch) (reached : target ≤ p.ticks * batch)
      (written : p.written = some target) : Tracked batch target none (some p)

def Progress.tick (p : Progress) (advanced : Bool) (call : Option Int) : Progress where
  ticks := if advanced then p.ticks + 1 else p.ticks
  written := call.or p.written

/-- Each sum on the way to the target fits an int. -/
def SumsFit (batch target : Int) : Prop :=
  ∀ ticks : Nat, ticks * batch < target → FitsInt ((ticks + 1 : Nat) * batch)

theorem tickTracked {batch target : Int} (fit : SumsFit batch target) {v : Seen F} (size : v.batchSize = batch)
    (unfinished : v.finished = false) {progress : Option Progress}
    (tracked : Tracked batch target v.entry progress) (errorRate : Option (UInt32 → F)) (k : UInt32)
    {advanced : Bool} (advance : advanced =
      (v.entry.isSome && !GoFloat.gt (errorPct errorRate k) v.maxErrorPct)) :
    Tracked batch target
      (if (v.tick errorRate k).finished then none else (v.tick errorRate k).entry)
      (progress.map fun p => p.tick advanced (tickCall errorRate k v)) := by
  subst size advance
  obtain ⟨entry, info, finished, batch, maxErrorPct⟩ := v
  cases unfinished
  cases tracked with
  | outside => exact .outside
  | complete before reached written => exact .complete before reached written
  | @ramping rs p aim current short written =>
    dsimp only at current short written
    cases above : GoFloat.gt (errorPct errorRate k) maxErrorPct with
    | true =>
      simp only [Seen.tick, tickCall, Option.bind_some, above, if_true, Bool.false_eq_true, if_false]
      exact .ramping aim current short written
    | false =>
      have more : ((p.ticks + 1 : Nat) : Int) * batch = p.ticks * batch + batch := by
        push_cast
        ring
      have sum : wrapInt (rs.currentVnodes + batch) = ((p.ticks + 1 : Nat) : Int) * batch := by
        rw [current, ← more]
        exact wrapIntFits (fit p.ticks short)
      simp only [Seen.tick, tickCall, Option.bind_some, above, Bool.false_eq_true, if_false, Bool.false_or,
        decide_eq_true_eq, Option.map_some, Progress.tick, Option.isSome_some, Bool.not_false, Bool.and_true,
        if_true]
      by_cases last : target ≤ ((p.ticks + 1 : Nat) : Int) * batch
      · have count : nextCount batch rs = target := by
          unfold nextCount
          split <;> omega
        rw [count, if_pos aim.le]
        exact .complete (by dsimp only; omega) last rfl
      · have count : nextCount batch rs = ((p.ticks + 1 : Nat) : Int) * batch := by
          unfold nextCount
          split <;> omega
        rw [count, if_neg (by omega)]
        exact .ramping aim rfl (not_le.mp last) rfl

/-! ### One step -/

structure OnPace (cfg : RingConfig F) (batch : Int) (s : World F) : Prop where
  settled : s.ring.cfg = cfg
  paced : s.ring.slowStart.batchSize = batch
  tracked : ∀ id, Tracked batch (rampTarget cfg) (s.ring.slowStart.restoring.lookup id) (s.progress id)

omit [GoFloat F] in
theorem beginTracked {cfg : RingConfig F} {batch : Int} {s : World F} (pace : OnPace cfg batch s)
    (aimed : 1 ≤ rampTarget cfg) (id k : UInt32) :
    Tracked batch (rampTarget cfg) ((s.ring.beginSlowStart id).slowStart.restoring.lookup k)
      ((if id ∈ s.ring.slowStart.restoring then s.progress
        else Function.update s.progress id (some ⟨0, none⟩)) k) := by
  by_cases present : id ∈ s.ring.slowStart.restoring
  · rw [Manager.beginSlowStart, if_pos present, if_pos present]
    exact pace.tracked k
  · rw [if_neg present]
    by_cases same : k = id
    · subst same
      rw [Function.update_self, Manager.beginSlowStart, if_neg present, AList.lookup_insert, pace.settled]
      exact .ramping rfl (by simp) (by simpa using Int.lt_of_lt_of_le Int.zero_lt_one aimed) rfl
    · rw [Function.update_of_ne same, beginEntry s.ring id k same]
      exact pace.tracked k

omit [GoFloat F] in
theorem cancelTracked {cfg : RingConfig F} {batch : Int} {s : World F} (pace : OnPace cfg batch s)
    (id k : UInt32) : Tracked batch (rampTarget cfg)
      ((s.ring.cancelSlowStart id).slowStart.restoring.lookup k) (Function.update s.progress id none k) := by
  by_cases same : k = id
  · subst same
    rw [Function.update_self, Manager.cancelSlowStart, AList.lookup_erase]
    exact .outside
  · rw [Function.update_of_ne same, Manager.cancelSlowStart, AList.lookup_erase_ne same]
    exact pace.tracked k

theorem observeTick {cfg : RingConfig F} {batch : Int} (fit : SumsFit batch (rampTarget cfg)) {s : World F}
    (pace : OnPace cfg batch s) (rt : Runtime)
    (errorRate : Option (UInt32 → F)) (k : UInt32) : Tracked batch (rampTarget cfg)
      ((s.ring.slowStartTick rt errorRate).slowStart.restoring.lookup k)
      (observe s rt (.slowStartTick errorRate) k) := by
  have advance : advances s.ring errorRate k = ((seen k (s.ring, [])).entry.isSome &&
      !GoFloat.gt (errorPct errorRate k) (seen k (s.ring, [])).maxErrorPct) := by
    simp only [advances, seen, ← AList.lookup_isSome, Bool.decide_eq_true]
  have tracked := tickTracked fit pace.paced rfl (pace.tracked k) errorRate k advance
  rw [slowStartTickEntry]
  simp only [observe, tickCallsLast]
  exact tracked

theorem stepOnPace {cfg : RingConfig F} {batch : Int} (fit : SumsFit batch (rampTarget cfg)) (s : World F)
    (e : Runtime × Op F) (t : World F) (pace : OnPace cfg batch s) (taken : Step s e t) : OnPace cfg batch t := by
  obtain ⟨rt, op⟩ := e
  obtain ⟨taken, progress⟩ := taken
  have table := applySlowStart rt taken
  have aimed := aimPositive cfg
  have kept : t.ring.slowStart.batchSize = batch := by
    rw [table, ← pace.paced]
    cases op with
    | beginSlowStart id => exact beginBatch s.ring id
    | slowStartTick errorRate => exact tickBatch rt s.ring errorRate
    | _ => rfl
  refine ⟨(applyCfg rt taken).trans pace.settled, kept, fun k => ?_⟩
  rw [table, progress]
  cases op with
  | beginSlowStart id => exact beginTracked pace aimed id k
  | cancelSlowStart id => exact cancelTracked pace id k
  | slowStartTick errorRate => exact observeTick fit pace rt errorRate k
  | _ => exact pace.tracked k

theorem tickInfo {cfg : RingConfig F} {batch : Int} (fit : SumsFit batch (rampTarget cfg)) {s : World F}
    (pace : OnPace cfg batch s) (rt : Runtime)
    (errorRate : Option (UInt32 → F)) {id : UInt32} {p : Progress} (known : s.progress id = some p)
    (positive : 1 ≤ batch) (advance : advances s.ring errorRate id = true) :
    (s.ring.slowStartTick rt errorRate).backendInfo id = (s.ring.backendInfo id).map fun b =>
      { b with vnodeCount := min ((p.ticks + 1) * batch) (rampTarget cfg) } := by
  obtain ⟨present, within⟩ := Bool.and_eq_true_iff.mp advance
  obtain ⟨rs, entry⟩ := Option.isSome_iff_exists.mp (AList.lookup_isSome.mpr (of_decide_eq_true present))
  have tracked := pace.tracked id
  rw [entry, known] at tracked
  cases tracked with
  | ramping aim current short written =>
    have aimed := aimPositive cfg
    have more : ((p.ticks : Int) + 1) * batch = p.ticks * batch + batch := by ring
    have sum : wrapInt (rs.currentVnodes + batch) = ((p.ticks : Int) + 1) * batch := by
      rw [current, ← more]
      exact wrapIntFits (by exact_mod_cast fit p.ticks short)
    have low : 0 ≤ (p.ticks : Int) * batch := Int.mul_nonneg (Int.natCast_nonneg _) (by omega)
    have count : nextCount batch rs = min ((p.ticks + 1) * batch) (rampTarget cfg) := by
      unfold nextCount
      split <;> omega
    have floor : ¬ min (((p.ticks : Int) + 1) * batch) (rampTarget cfg) < 1 := by omega
    have below : GoFloat.gt (errorPct errorRate id) s.ring.slowStart.maxErrorPct = false := by simpa using within
    rw [slowStartTickInfo]
    simp only [Seen.tick, seen, entry, below, pace.paced, Bool.false_eq_true, if_false, count, if_neg floor]

/-- What no tick advances, it leaves as it is, and calls nothing about. -/
theorem tickSpares (rt : Runtime) (m : Manager F) (errorRate : Option (UInt32 → F)) {id : UInt32}
    (held : advances m errorRate id = false) (before : Option Int) :
    (m.slowStartTick rt errorRate).backendInfo id = m.backendInfo id ∧
      lastCall id before (tickCalls rt m errorRate) = before := by
  rw [slowStartTickInfo, tickCallsLast]
  cases entry : m.slowStart.restoring.lookup id with
  | none => simp [Seen.tick, tickCall, seen, entry]
  | some rs =>
    have present : id ∈ m.slowStart.restoring := AList.lookup_isSome.mp (by simp [entry])
    have above : GoFloat.gt (errorPct errorRate id) m.slowStart.maxErrorPct = true := by
      simpa [advances, present] using held
    simp [Seen.tick, tickCall, seen, entry, above]

/-! ### Runs -/

theorem ticksLeft {batch target : Int} {ticks : Nat} (positive : 1 ≤ batch) :
    (ticks : Int) < ⌈(target : ℚ) / batch⌉ ↔ ticks * batch < target := by
  have divisor : (0 : ℚ) < batch := by exact_mod_cast positive
  rw [Int.lt_ceil, lt_div_iff₀ divisor]
  exact_mod_cast Iff.rfl

theorem ticksDone {batch target : Int} {ticks : Nat} (positive : 1 ≤ batch)
    (before : ticks * batch < target + batch) (reached : target ≤ ticks * batch) :
    (ticks : Int) = ⌈(target : ℚ) / batch⌉ := by
  have divisor : (0 : ℚ) < batch := by exact_mod_cast positive
  have reached : (target : ℚ) ≤ ticks * batch := by exact_mod_cast reached
  have before : (ticks : ℚ) * batch < target + batch := by exact_mod_cast before
  have above : (target : ℚ) / batch ≤ (ticks : Int) := by
    rw [div_le_iff₀ divisor]
    exact_mod_cast reached
  have below : ((ticks : Int) : ℚ) < target / batch + 1 := by
    rw [div_add_one divisor.ne', lt_div_iff₀ divisor]
    exact_mod_cast before
  exact (Int.ceil_eq_iff.mpr ⟨by linarith, above⟩).symm

theorem sumsFit {batch target : Int} (positive : 1 ≤ batch)
    (last : ⌈(target : ℚ) / batch⌉ * batch < 2 ^ 63) : SumsFit batch target := by
  intro ticks short
  have before := (ticksLeft positive).mpr short
  have within : ((ticks + 1 : Nat) : Int) * batch ≤ ⌈(target : ℚ) / batch⌉ * batch :=
    Int.mul_le_mul_of_nonneg_right (by push_cast; omega) (by omega)
  have nonneg : 0 ≤ ((ticks + 1 : Nat) : Int) * batch := Int.mul_nonneg (Int.natCast_nonneg _) (by omega)
  exact ⟨by omega, by omega⟩

/-- After every run: what is known about a backend, what was written for it last and when it leaves the
table, and what one more tick does to its count. -/
def Exact (m : Manager F) : Prop :=
  ∀ (es : List (Runtime × Op F)) (t : World F), Run Step (start m) es t → ∀ id,
    (t.progress id = none → id ∉ t.ring.slowStart.restoring) ∧
    (∀ p, t.progress id = some p →
      p.written = (if p.ticks = 0 then none else
        some (min (p.ticks * m.slowStart.batchSize) (rampTarget m.cfg))) ∧
      ((p.ticks : Int) < ⌈(rampTarget m.cfg : ℚ) / m.slowStart.batchSize⌉ ∧ id ∈ t.ring.slowStart.restoring ∨
        (p.ticks : Int) = ⌈(rampTarget m.cfg : ℚ) / m.slowStart.batchSize⌉ ∧
          id ∉ t.ring.slowStart.restoring)) ∧
    ∀ rt errorRate,
      (advances t.ring errorRate id = false →
        (t.ring.slowStartTick rt errorRate).backendInfo id = t.ring.backendInfo id) ∧
      ∀ p, t.progress id = some p → advances t.ring errorRate id = true →
        (t.ring.slowStartTick rt errorRate).backendInfo id = (t.ring.backendInfo id).map fun b =>
          { b with vnodeCount := min ((p.ticks + 1) * m.slowStart.batchSize) (rampTarget m.cfg) }

theorem sumsFitExact {m : Manager F} (positive : 1 ≤ m.slowStart.batchSize)
    (empty : ∀ id, m.slowStart.restoring.lookup id = none)
    (fit : SumsFit m.slowStart.batchSize (rampTarget m.cfg)) : Exact m := by
  intro es t run id
  have first : OnPace m.cfg m.slowStart.batchSize (start m) := ⟨rfl, rfl, fun k => by
    rw [show (start m).ring.slowStart.restoring.lookup k = none from empty k]
    exact .outside⟩
  have pace := StepRun.runInvariant (stepOnPace fit) run first
  have tracked := pace.tracked id
  refine ⟨fun unknown => ?_, fun p known => ?_, fun rt errorRate =>
    ⟨fun held => (tickSpares rt t.ring errorRate held none).1,
      fun p known advance => tickInfo fit pace rt errorRate known positive advance⟩⟩
  · rw [unknown] at tracked
    generalize entry : t.ring.slowStart.restoring.lookup id = found at tracked
    cases tracked
    exact AList.lookup_eq_none.mp entry
  · rw [known] at tracked
    generalize entry : t.ring.slowStart.restoring.lookup id = found at tracked
    cases tracked with
    | ramping aim current short written =>
      rw [min_eq_left short.le]
      exact ⟨written, .inl ⟨(ticksLeft positive).mpr short, AList.lookup_isSome.mp (by rw [entry]; rfl)⟩⟩
    | complete before reached written =>
      have target := aimPositive m.cfg
      have some_ : p.ticks ≠ 0 := by
        intro zero
        rw [zero] at reached
        simp at reached
        omega
      rw [if_neg some_, min_eq_right reached]
      exact ⟨written, .inr ⟨ticksDone positive before reached, AList.lookup_eq_none.mp entry⟩⟩

/-! ### A sum that wraps -/

/-- A backend in the table after `ticks` ticks, with the count they came to. -/
structure Climbed (m : Manager F) (id : UInt32) (ticks : Nat) (count : Int) (t : World F) : Prop where
  batch : t.ring.slowStart.batchSize = m.slowStart.batchSize
  limit : t.ring.slowStart.maxErrorPct = m.slowStart.maxErrorPct
  entry : ∃ rs, t.ring.slowStart.restoring.lookup id = some rs ∧ rs.targetVnodes = rampTarget m.cfg ∧
    rs.currentVnodes = count
  known : ∃ p, t.progress id = some p ∧ p.ticks = ticks

theorem tickLimit (rt : Runtime) (m : Manager F) (errorRate : Option (UInt32 → F)) :
    (m.slowStartTick rt errorRate).slowStart.maxErrorPct = m.slowStart.maxErrorPct :=
  slowStartTickKeeps (P := fun n => n.slowStart.maxErrorPct = m.slowStart.maxErrorPct) rt errorRate
    (fun _ _ held => held) (fun n id count held => by rw [setVnodeCountSlowStart]; exact held) rfl

theorem beginClimbs {m : Manager F} (id : UInt32) (empty : m.slowStart.restoring.lookup id = none) :
    ∃ t, Step (start m) (.plain, .beginSlowStart id) t ∧ Climbed m id 0 0 t := by
  have absent := AList.lookup_eq_none.mp empty
  refine ⟨⟨m.beginSlowStart id, observe (start m) .plain (.beginSlowStart id)⟩, stepTaken rfl,
    beginBatch m id, ?_, ⟨⟨id, rampTarget m.cfg, 0, false⟩, ?_, rfl, rfl⟩, ⟨0, none⟩, ?_, rfl⟩
  · show (m.beginSlowStart id).slowStart.maxErrorPct = _
    rw [Manager.beginSlowStart, if_neg absent]
  · show (m.beginSlowStart id).slowStart.restoring.lookup id = _
    rw [Manager.beginSlowStart, if_neg absent, AList.lookup_insert]
    rfl
  · exact (congrFun (if_neg absent) id).trans (Function.update_self ..)

theorem tickClimbs {m : Manager F} (calm : GoFloat.gt m.slowStart.maxErrorPct m.slowStart.maxErrorPct = false)
    {id : UInt32} {ticks : Nat} {count : Int} {t : World F} (climbed : Climbed m id ticks count t)
    (short : wrapInt (count + m.slowStart.batchSize) < rampTarget m.cfg) :
    ∃ u, Step t (.plain, .slowStartTick (some fun _ => m.slowStart.maxErrorPct)) u ∧
      Climbed m id (ticks + 1) (wrapInt (count + m.slowStart.batchSize)) u := by
  obtain ⟨batch, limit, ⟨rs, entry, aim, current⟩, p, known, counted⟩ := climbed
  have present : id ∈ t.ring.slowStart.restoring := AList.lookup_isSome.mp (by rw [entry]; rfl)
  have unpaused : GoFloat.gt (errorPct (some fun _ => m.slowStart.maxErrorPct) id)
      t.ring.slowStart.maxErrorPct = false := by rw [limit]; exact calm
  have next : nextCount t.ring.slowStart.batchSize rs = wrapInt (count + m.slowStart.batchSize) := by
    unfold nextCount
    rw [batch, current, aim, if_neg (by omega)]
  refine ⟨⟨t.ring.slowStartTick .plain _, observe t .plain (.slowStartTick _)⟩, stepTaken rfl,
    (tickBatch ..).trans batch, (tickLimit ..).trans limit,
    ⟨{ rs with paused := false, currentVnodes := wrapInt (count + m.slowStart.batchSize) }, ?_, aim, rfl⟩, ?_⟩
  · rw [slowStartTickEntry]
    simp only [Seen.tick, seen, entry, unpaused, next, aim, Bool.false_eq_true, if_false]
    exact if_neg (by simpa using short)
  · refine ⟨_, congrArg (Option.map _) known, ?_⟩
    have advanced : advances t.ring (some fun _ => m.slowStart.maxErrorPct) id = true := by
      simp [advances, present, unpaused]
    simp only [advanced, if_true, counted]

/-- As long as the sums fit, a backend climbs by one batch in each tick. -/
theorem climbs {m : Manager F} (positive : 1 ≤ m.slowStart.batchSize)
    (calm : GoFloat.gt m.slowStart.maxErrorPct m.slowStart.maxErrorPct = false) (target : rampTarget m.cfg < 2 ^ 63)
    (id : UInt32) (empty : m.slowStart.restoring.lookup id = none) (ticks : Nat)
    (short : ticks * m.slowStart.batchSize < rampTarget m.cfg) :
    ∃ es t, Run Step (start m) es t ∧ Climbed m id ticks (ticks * m.slowStart.batchSize) t := by
  induction ticks with
  | zero =>
    obtain ⟨t, begun, climbed⟩ := beginClimbs id empty
    exact ⟨_, t, .cons begun (.nil t), by simpa using climbed⟩
  | succ ticks ih =>
    have more : ((ticks + 1 : Nat) : Int) * m.slowStart.batchSize =
        ticks * m.slowStart.batchSize + m.slowStart.batchSize := by
      push_cast
      ring
    have nonneg : 0 ≤ (ticks : Int) * m.slowStart.batchSize := Int.mul_nonneg (Int.natCast_nonneg _) (by omega)
    have sum : wrapInt (ticks * m.slowStart.batchSize + m.slowStart.batchSize) =
        ticks * m.slowStart.batchSize + m.slowStart.batchSize := wrapIntFits ⟨by omega, by omega⟩
    obtain ⟨es, t, run, climbed⟩ := ih (by omega)
    obtain ⟨u, ticked, after⟩ := tickClimbs calm climbed (by omega)
    rw [sum, ← more] at after
    exact ⟨_, u, StepRun.runSnoc run ticked, after⟩

/-- The ramp of every backend is exact if and only if the sum of its last tick is an int. -/
theorem rampExact {m : Manager F} (positive : 1 ≤ m.slowStart.batchSize)
    (empty : ∀ id, m.slowStart.restoring.lookup id = none) (batch : m.slowStart.batchSize < 2 ^ 63)
    (target : rampTarget m.cfg < 2 ^ 63)
    (calm : GoFloat.gt m.slowStart.maxErrorPct m.slowStart.maxErrorPct = false) :
    Exact m ↔ ⌈(rampTarget m.cfg : ℚ) / m.slowStart.batchSize⌉ * m.slowStart.batchSize < 2 ^ 63 := by
  refine ⟨fun exact_ => ?_, fun last => sumsFitExact positive empty (sumsFit positive last)⟩
  by_contra past
  have aimed := aimPositive m.cfg
  have left : ((0 : Nat) : Int) < ⌈(rampTarget m.cfg : ℚ) / m.slowStart.batchSize⌉ :=
    (ticksLeft positive).mpr (by simpa using Int.lt_of_lt_of_le Int.zero_lt_one aimed)
  obtain ⟨ticks, all⟩ : ∃ ticks : Nat, ((ticks + 1 : Nat) : Int) =
      ⌈(rampTarget m.cfg : ℚ) / m.slowStart.batchSize⌉ :=
    ⟨(⌈(rampTarget m.cfg : ℚ) / m.slowStart.batchSize⌉ - 1).toNat, by omega⟩
  have short : ticks * m.slowStart.batchSize < rampTarget m.cfg :=
    (ticksLeft positive).mp (by omega)
  have more : ((ticks + 1 : Nat) : Int) * m.slowStart.batchSize =
      ticks * m.slowStart.batchSize + m.slowStart.batchSize := by
    push_cast
    ring
  rw [← all, more] at past
  have wrapped := wrapIntPast (not_lt.mp past) (by omega)
  obtain ⟨es, t, run, climbed⟩ := climbs positive calm target 0 (empty 0) ticks short
  obtain ⟨u, ticked, after⟩ := tickClimbs calm climbed (by omega)
  obtain ⟨p, known, counted⟩ := after.known
  obtain ⟨rs, entry, _⟩ := after.entry
  have present : 0 ∈ u.ring.slowStart.restoring := AList.lookup_isSome.mp (by rw [entry]; rfl)
  -- the entry should be gone with its last tick
  rcases ((exact_ _ u (StepRun.runSnoc run ticked) 0).2.1 p known).2 with ⟨early, _⟩ | ⟨_, gone⟩
  · omega
  · exact gone present

end Step

/-! ### Two backends, and one whose sum wraps -/

def twoServers : Manager ℚ :=
  ((newManager (load { vnodesPerServer := some 40 })).addBackend .plain { id := 1, health := true }).addBackend
    .plain { id := 2, health := true }

/-- Backend 2 fails too often. -/
def secondFails (id : UInt32) : ℚ := if id = 2 then 50 else 0

/-- Batches of 15 to a target of 40: backend 2 misses the second tick, so backend 1 is done first. -/
theorem twoServersRamp : ∃ t : World ℚ,
    Run Step (start twoServers) [(.plain, .beginSlowStart 1), (.plain, .beginSlowStart 2), (.plain, .slowStartTick none),
      (.plain, .slowStartTick (some secondFails)), (.plain, .slowStartTick none)] t ∧
    t.progress 1 = some ⟨3, some 40⟩ ∧ 1 ∉ t.ring.slowStart.restoring ∧
    t.progress 2 = some ⟨2, some 30⟩ ∧ 2 ∈ t.ring.slowStart.restoring := by
  have run : Run Step (start twoServers) [(.plain, .beginSlowStart 1), (.plain, .beginSlowStart 2),
      (.plain, .slowStartTick none), (.plain, .slowStartTick (some secondFails)), (.plain, .slowStartTick none)] _ :=
    .cons (stepTaken rfl) (.cons (stepTaken rfl) (.cons (stepTaken rfl) (.cons (stepTaken rfl)
      (.cons (stepTaken rfl) (.nil _)))))
  have exact_ : Exact twoServers := (rampExact (by decide +kernel) (fun _ => rfl) (by decide +kernel)
    (by decide +kernel) (by decide +kernel)).mpr (by decide +kernel)
  have three : (⌈(rampTarget twoServers.cfg : ℚ) / twoServers.slowStart.batchSize⌉ : ℤ) = 3 := by decide +kernel
  have first := (exact_ _ _ run 1).2.1 ⟨3, some 40⟩ (by decide +kernel)
  have second := (exact_ _ _ run 2).2.1 ⟨2, some 30⟩ (by decide +kernel)
  rw [three] at first second
  refine ⟨_, run, by decide +kernel, ?_, by decide +kernel, ?_⟩
  · rcases first.2 with ⟨early, _⟩ | ⟨_, gone⟩
    · exact absurd early (by decide)
    · exact gone
  · rcases second.2 with ⟨_, present⟩ | ⟨done, _⟩
    · exact present
    · exact absurd done (by decide)

/-- 2^63 - 1 vnodes in batches of 2^62 + 1, for a backend that is down. -/
def wideServer : Manager ℚ :=
  (newManager (load { vnodesPerServer := some (2 ^ 63 - 1), slowStartBatchSize := some (2 ^ 62 + 1) })).addBackend
    .plain { id := 1 }

/-- The second tick should write the target and end the ramp: it writes a negative count and keeps the entry. -/
theorem secondSumWraps : (∃ t : World ℚ, Run Step (start wideServer)
      [(.plain, .beginSlowStart 1), (.plain, .slowStartTick none), (.plain, .slowStartTick none)] t ∧
      t.progress 1 = some ⟨2, some (-2 ^ 63 + 2)⟩ ∧ 1 ∈ t.ring.slowStart.restoring) ∧ ¬ Exact wideServer := by
  have run : Run Step (start wideServer)
      [(.plain, .beginSlowStart 1), (.plain, .slowStartTick none), (.plain, .slowStartTick none)] _ :=
    .cons (stepTaken rfl) (.cons (stepTaken rfl) (.cons (stepTaken rfl) (.nil _)))
  refine ⟨⟨_, run, by decide +kernel, by decide +kernel⟩, fun exact_ => ?_⟩
  have written := ((exact_ _ _ run 1).2.1 ⟨2, some (-2 ^ 63 + 2)⟩ (by decide +kernel)).1
  exact absurd written (by decide +kernel)

end OmegaLb.SlowStartProgress
