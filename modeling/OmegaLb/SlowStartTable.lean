import OmegaLb.RingInvariant

/-! The table of restorations: which operations write it, and what one tick does to each entry
and to the backend it is about. -/
namespace OmegaLb.SlowStartTable
open RingManager RingInvariant
open StepRun (Run)
open Config (RingConfig)

/-! ### Loops that touch one key at a time -/

section Loop

variable {σ κ β : Type} {step : σ → κ → σ} {view : κ → σ → β}

theorem foldElsewhere (other : ∀ s j k, k ≠ j → view k (step s j) = view k s) {ks : List κ} {k : κ}
    (absent : k ∉ ks) (s : σ) : view k (ks.foldl step s) = view k s := by
  induction ks generalizing s with
  | nil => rfl
  | cons j rest ih =>
    obtain ⟨differs, later⟩ := List.ne_and_not_mem_of_not_mem_cons absent
    rw [List.foldl_cons, ih later, other s j k differs]

theorem foldOnce (other : ∀ s j k, k ≠ j → view k (step s j) = view k s) {ks : List κ}
    (distinct : ks.Nodup) {k : κ} (member : k ∈ ks) (s : σ) :
    ∃ u, view k u = view k s ∧ view k (ks.foldl step s) = view k (step u k) := by
  obtain ⟨before, after, shape⟩ := List.append_of_mem member
  subst shape
  obtain ⟨_, later, apart⟩ := List.nodup_append.mp distinct
  have notBefore : k ∉ before := fun inside => apart k inside k List.mem_cons_self rfl
  refine ⟨before.foldl step s, foldElsewhere other notBefore s, ?_⟩
  rw [List.foldl_append, List.foldl_cons, foldElsewhere other (List.nodup_cons.mp later).1]

end Loop

theorem eraseAllLookup {V : Type} (table : GoMap UInt32 V) (ids : List UInt32) (k : UInt32) :
    (ids.foldl (fun t id => t.erase id) table).lookup k = if k ∈ ids then none else table.lookup k := by
  induction ids generalizing table with
  | nil => simp
  | cons id rest ih =>
    rw [List.foldl_cons, ih]
    by_cases same : k = id
    · subst same
      simp [AList.lookup_erase]
    · simp [same, AList.lookup_erase_ne same]

/-! ### What the operations leave alone -/

variable {F : Type}

theorem setFieldSlowStart (rt : Runtime) (m : Manager F) (id : UInt32) (write : Backend → Backend) :
    (m.setField rt id write).slowStart = m.slowStart := by
  unfold Manager.setField
  split <;> rfl

theorem beginSlowStartInfo (m : Manager F) (id k : UInt32) :
    (m.beginSlowStart id).backendInfo k = m.backendInfo k := by
  unfold Manager.beginSlowStart
  split <;> rfl

/-! ### One tick, as one backend sees it -/

/-- What a tick in progress holds about one backend. -/
structure Seen (F : Type) where
  entry : Option RestoreState
  info : Option Backend
  finished : Bool
  batchSize : Int
  maxErrorPct : F

def seen (k : UInt32) (acc : Manager F × List UInt32) : Seen F where
  entry := acc.1.slowStart.restoring.lookup k
  info := acc.1.backendInfo k
  finished := decide (k ∈ acc.2)
  batchSize := acc.1.slowStart.batchSize
  maxErrorPct := acc.1.slowStart.maxErrorPct

def nextCount (batchSize : Int) (rs : RestoreState) : Int :=
  if wrapInt (rs.currentVnodes + batchSize) > rs.targetVnodes then rs.targetVnodes
  else wrapInt (rs.currentVnodes + batchSize)

theorem setVnodeCountInfo (rt : Runtime) (m : Manager F) (id k : UInt32) (count : Int) :
    (m.setVnodeCount rt id count).backendInfo k = if k = id then
      (m.backendInfo id).map fun b => { b with vnodeCount := if count < 1 then 1 else count }
    else m.backendInfo k :=
  setFieldLookup rt m id k _

theorem setVnodeCountSlowStart (rt : Runtime) (m : Manager F) (id : UInt32) (count : Int) :
    (m.setVnodeCount rt id count).slowStart = m.slowStart :=
  setFieldSlowStart rt m id _

def restored (m : Manager F) (id : UInt32) (rs : RestoreState) : Manager F :=
  { m with slowStart.restoring := m.slowStart.restoring.insert id rs }

variable [GoFloat F]

def Seen.tick (errorRate : Option (UInt32 → F)) (k : UInt32) (v : Seen F) : Seen F :=
  match v.entry with
  | none => v
  | some rs =>
    if GoFloat.gt (errorPct errorRate k) v.maxErrorPct then { v with entry := some { rs with paused := true } }
    else
      let newCount := nextCount v.batchSize rs
      { v with
        entry := some { rs with paused := false, currentVnodes := newCount }
        info := v.info.map fun b => { b with vnodeCount := if newCount < 1 then 1 else newCount }
        finished := v.finished || decide (newCount ≥ rs.targetVnodes) }

theorem tickOneSkips (rt : Runtime) (errorRate : Option (UInt32 → F)) {m : Manager F}
    (done : List UInt32) {id : UInt32} (missing : m.slowStart.restoring.lookup id = none) :
    tickOne rt errorRate (m, done) id = (m, done) := by
  simp [tickOne, missing]

theorem tickOnePauses (rt : Runtime) {errorRate : Option (UInt32 → F)} {m : Manager F}
    (done : List UInt32) {id : UInt32} {rs : RestoreState}
    (found : m.slowStart.restoring.lookup id = some rs)
    (above : GoFloat.gt (errorPct errorRate id) m.slowStart.maxErrorPct = true) :
    tickOne rt errorRate (m, done) id = (restored m id { rs with paused := true }, done) := by
  simp [tickOne, found, above, restored]

theorem tickOneAdvances (rt : Runtime) {errorRate : Option (UInt32 → F)} {m : Manager F}
    (done : List UInt32) {id : UInt32} {rs : RestoreState}
    (found : m.slowStart.restoring.lookup id = some rs)
    (within : GoFloat.gt (errorPct errorRate id) m.slowStart.maxErrorPct = false) :
    tickOne rt errorRate (m, done) id =
      let newCount := nextCount m.slowStart.batchSize rs
      ((restored m id { rs with paused := false, currentVnodes := newCount }).setVnodeCount rt id newCount,
        if newCount ≥ rs.targetVnodes then done ++ [id] else done) := by
  simp [tickOne, found, within, restored, nextCount]

theorem tickOneElsewhere (rt : Runtime) (errorRate : Option (UInt32 → F))
    (acc : Manager F × List UInt32) (j k : UInt32) (differs : k ≠ j) :
    seen k (tickOne rt errorRate acc j) = seen k acc := by
  obtain ⟨m, done⟩ := acc
  cases found : m.slowStart.restoring.lookup j with
  | none => rw [tickOneSkips rt errorRate done found]
  | some rs =>
    cases above : GoFloat.gt (errorPct errorRate j) m.slowStart.maxErrorPct with
    | true =>
      rw [tickOnePauses rt done found above]
      simp [seen, restored, Manager.backendInfo, AList.lookup_insert_ne differs]
    | false =>
      rw [tickOneAdvances rt done found above]
      simp only [seen, setVnodeCountInfo, setVnodeCountSlowStart, if_neg differs, restored,
        AList.lookup_insert_ne differs]
      split
      · simp [differs, Manager.backendInfo]
      · rfl

theorem tickOneSeen (rt : Runtime) (errorRate : Option (UInt32 → F)) (acc : Manager F × List UInt32)
    (k : UInt32) : seen k (tickOne rt errorRate acc k) = (seen k acc).tick errorRate k := by
  obtain ⟨m, done⟩ := acc
  cases found : m.slowStart.restoring.lookup k with
  | none =>
    rw [tickOneSkips rt errorRate done found]
    simp [Seen.tick, seen, found]
  | some rs =>
    cases above : GoFloat.gt (errorPct errorRate k) m.slowStart.maxErrorPct with
    | true =>
      rw [tickOnePauses rt done found above]
      simp [Seen.tick, seen, found, above, restored, Manager.backendInfo]
    | false =>
      rw [tickOneAdvances rt done found above]
      have pushed : decide (k ∈ if nextCount m.slowStart.batchSize rs ≥ rs.targetVnodes then done ++ [k] else done) =
          (decide (k ∈ done) || decide (nextCount m.slowStart.batchSize rs ≥ rs.targetVnodes)) := by
        split <;> simp [*]
      simp only [Seen.tick, seen, found, above, pushed, setVnodeCountInfo, setVnodeCountSlowStart, if_true]
      simp [restored, Manager.backendInfo]

theorem tickLoopSeen (rt : Runtime) (m : Manager F) (errorRate : Option (UInt32 → F)) (k : UInt32) :
    seen k ((rt.keyOrder m.slowStart.restoring.keys).foldl (tickOne rt errorRate) (m, [])) =
      (seen k (m, [])).tick errorRate k := by
  have keys := rt.keyOrderPerm m.slowStart.restoring.keys
  have other := tickOneElsewhere rt errorRate
  by_cases member : k ∈ rt.keyOrder m.slowStart.restoring.keys
  · have distinct := keys.nodup_iff.mpr m.slowStart.restoring.keys_nodup
    obtain ⟨u, before, after⟩ := foldOnce other distinct member (m, [])
    rw [after, tickOneSeen, before]
  · have missing : m.slowStart.restoring.lookup k = none := by
      rw [AList.lookup_eq_none, AList.mem_keys, ← keys.mem_iff]
      exact member
    rw [foldElsewhere other member]
    simp [Seen.tick, seen, missing]

theorem slowStartTickEntry (rt : Runtime) (m : Manager F) (errorRate : Option (UInt32 → F)) (k : UInt32) :
    (m.slowStartTick rt errorRate).slowStart.restoring.lookup k =
      let after := (seen k (m, [])).tick errorRate k
      if after.finished then none else after.entry := by
  dsimp only
  rw [← tickLoopSeen rt m errorRate k]
  unfold Manager.slowStartTick
  dsimp only
  rw [eraseAllLookup]
  simp [seen]

theorem slowStartTickInfo (rt : Runtime) (m : Manager F) (errorRate : Option (UInt32 → F)) (k : UInt32) :
    (m.slowStartTick rt errorRate).backendInfo k = ((seen k (m, [])).tick errorRate k).info := by
  rw [← tickLoopSeen rt m errorRate k]
  rfl

theorem slowStartTickTarget (rt : Runtime) {m : Manager F} {errorRate : Option (UInt32 → F)} {k : UInt32}
    {rs : RestoreState} (left : (m.slowStartTick rt errorRate).slowStart.restoring.lookup k = some rs) :
    ∃ before, m.slowStart.restoring.lookup k = some before ∧ rs.targetVnodes = before.targetVnodes := by
  rw [slowStartTickEntry] at left
  dsimp only at left
  split at left
  · contradiction
  · cases found : m.slowStart.restoring.lookup k with
    | none => simp [Seen.tick, seen, found] at left
    | some before =>
      refine ⟨before, rfl, ?_⟩
      simp only [Seen.tick, seen, found] at left
      split at left
      all_goals cases left; rfl

/-! ### Targets are positive -/

def Aimed (m : Manager F) : Prop :=
  ∀ id rs, m.slowStart.restoring.lookup id = some rs → 1 ≤ rs.targetVnodes

omit [GoFloat F] in
theorem beginSlowStartAimed {m : Manager F} (aimed : Aimed m) (id : UInt32) : Aimed (m.beginSlowStart id) := by
  unfold Manager.beginSlowStart
  split
  · exact aimed
  · intro k rs found
    dsimp only at found
    by_cases same : k = id
    · subst same
      rw [AList.lookup_insert] at found
      cases found
      dsimp only
      split <;> omega
    · rw [AList.lookup_insert_ne same] at found
      exact aimed k rs found

theorem adjustSlowStart (rt : Runtime) (m : Manager F) : (m.adjust rt).slowStart = m.slowStart := by
  unfold Manager.adjust
  dsimp only
  split
  · split
    · rfl
    · split
      · split <;> rfl
      · rfl
  · rfl

theorem applySlowStart (rt : Runtime) {m next : Manager F} {op : Op F} (taken : m.apply rt op = .ok next) :
    next.slowStart = match op with
      | .beginSlowStart id => (m.beginSlowStart id).slowStart
      | .cancelSlowStart id => (m.cancelSlowStart id).slowStart
      | .slowStartTick errorRate => (m.slowStartTick rt errorRate).slowStart
      | _ => m.slowStart := by
  cases op with
  | addBackend b => cases taken; rfl
  | removeBackend id => cases taken; rfl
  | setHealth id healthy => cases taken; exact setFieldSlowStart rt m id _
  | setDraining id draining => cases taken; exact setFieldSlowStart rt m id _
  | setDrainingAll draining => cases taken; rfl
  | setVnodeCount id count => cases taken; exact setFieldSlowStart rt m id _
  | releaseConn id => cases taken; rfl
  | route key =>
    simp only [Manager.apply, bind, Except.bind] at taken
    split at taken <;> try contradiction
    rename_i out routed
    cases taken
    exact routeKeeps (P := fun n => n.slowStart = m.slowStart) rt rfl (fun _ => rfl)
      (fun n held => (adjustSlowStart rt n).trans held) routed
  | proactiveAdjust loadWindow => cases taken; rfl
  | beginSlowStart id => cases taken; rfl
  | cancelSlowStart id => cases taken; rfl
  | slowStartTick errorRate => cases taken; rfl

theorem stepAimed {m next : Manager F} {op : Runtime × Op F} (aimed : Aimed m)
    (taken : Step m op next) : Aimed next := by
  obtain ⟨rt, op⟩ := op
  have after := applySlowStart rt taken
  have same {n : Manager F} (unchanged : next.slowStart = n.slowStart) (held : Aimed n) : Aimed next := by
    intro id rs found
    rw [unchanged] at found
    exact held id rs found
  cases op with
  | beginSlowStart id => exact same after (beginSlowStartAimed aimed id)
  | cancelSlowStart id =>
    intro k rs found
    rw [after] at found
    by_cases gone : k = id
    · subst gone
      simp [Manager.cancelSlowStart] at found
    · exact aimed k rs ((AList.lookup_erase_ne gone).symm.trans found)
  | slowStartTick errorRate =>
    intro k rs found
    rw [after] at found
    obtain ⟨before, held, target⟩ := slowStartTickTarget rt found
    rw [target]
    exact aimed k before held
  | _ => exact same after aimed

theorem runAimed {cfg : RingConfig F} {ops m} (run : Run Step (newManager cfg) ops m) : Aimed m := by
  have preserved : ∀ (s : Manager F) e t, Aimed s → Step s e t → Aimed t :=
    fun _ _ _ aimed taken => stepAimed aimed taken
  refine StepRun.runInvariant preserved run ?_
  intro id rs found
  simp [newManager, newSlowStartController] at found

end OmegaLb.SlowStartTable
