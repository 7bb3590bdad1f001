import OmegaLb.SlowStartTable

/-! slowStartTick as it runs: it drops the slow-start lock around each SetVnodeCount and deletes
the finished ids at its end, so BeginSlowStart and CancelSlowStart may come in between. -/
namespace OmegaLb.SlowStartRace
open RingManager RingInvariant SlowStartTable
open StepRun (Run Guarded Does)
open Config (RingConfig load)

/-- The range over the map: an entry there from the start is produced unless it is deleted
first, one created since may be produced or not. -/
structure Range where
  owed : List UInt32
  created : List UInt32
  done : List UInt32
  deriving DecidableEq, Repr

def Range.without (it : Range) (id : UInt32) : Range :=
  { it with owed := it.owed.filter (· ≠ id), created := it.created.filter (· ≠ id) }

/-- Where the tick is. It holds the lock while it ranges and at no other point. -/
inductive Tick where
  | idle
  | ranging (it : Range)
  | unlocked (it : Range) (id : UInt32) (newCount targetVnodes : Int)
  | written (it : Range) (id : UInt32) (newCount targetVnodes : Int)
  deriving DecidableEq, Repr

def Tick.locked : Tick → Bool
  | .ranging _ => true
  | _ => false

def Tick.map (f : Range → Range) : Tick → Tick
  | .idle => .idle
  | .ranging it => .ranging (f it)
  | .unlocked it id newCount targetVnodes => .unlocked (f it) id newCount targetVnodes
  | .written it id newCount targetVnodes => .written (f it) id newCount targetVnodes

inductive Event (F : Type) where
  | tickStart
  | next (id : UInt32) (errorRate : Option (UInt32 → F))
  | write (rt : Runtime)
  | relock
  | finish
  | begin (id : UInt32)
  | cancel (id : UInt32)

variable {F : Type}

def Event.ofTick : Event F → Bool
  | .begin _ | .cancel _ => false
  | _ => true

/-- `cancelled` holds the backends cancelled and not begun since, `registered` the target of a
registration that is neither cancelled nor reached. -/
structure Race (F : Type) where
  manager : Manager F
  tick : Tick
  cancelled : UInt32 → Bool
  registered : UInt32 → Option Int

def Race.entry (s : Race F) (id : UInt32) : Option RestoreState :=
  s.manager.slowStart.restoring.lookup id

def Race.setEntry (s : Race F) (id : UInt32) (rs : RestoreState) : Race F :=
  { s with manager.slowStart.restoring := s.manager.slowStart.restoring.insert id rs }

def start (m : Manager F) : Race F where
  manager := m
  tick := .idle
  cancelled := fun _ => false
  registered := fun id => (m.slowStart.restoring.lookup id).map RestoreState.targetVnodes

def Race.produce [GoFloat F] (s : Race F) (it : Range) (id : UInt32) (rs : RestoreState)
    (errorRate : Option (UInt32 → F)) : Race F :=
  if GoFloat.gt (errorPct errorRate id) s.manager.slowStart.maxErrorPct then
    { s.setEntry id { rs with paused := true } with tick := .ranging (it.without id) }
  else
    let added := wrapInt (rs.currentVnodes + s.manager.slowStart.batchSize)
    let newCount := if added > rs.targetVnodes then rs.targetVnodes else added
    { s.setEntry id { rs with paused := false, currentVnodes := newCount } with
      tick := .unlocked (it.without id) id newCount rs.targetVnodes }

def step [GoFloat F] (s : Race F) : Event F → Option (Race F)
  | .tickStart =>
    match s.tick with
    | .idle => some { s with tick := .ranging ⟨s.manager.slowStart.restoring.keys, [], []⟩ }
    | _ => none
  | .next id errorRate =>
    match s.tick, s.entry id with
    | .ranging it, some rs =>
      if id ∈ it.owed ∨ id ∈ it.created then some (s.produce it id rs errorRate) else none
    | _, _ => none
  | .write rt =>
    match s.tick with
    | .unlocked it id newCount targetVnodes => some { s with
        manager := s.manager.setVnodeCount rt id newCount
        tick := .written it id newCount targetVnodes
        registered := if s.registered id = some newCount then Function.update s.registered id none
          else s.registered }
    | _ => none
  | .relock =>
    match s.tick with
    | .written it id newCount targetVnodes =>
      let done := if newCount ≥ targetVnodes then it.done ++ [id] else it.done
      some { s with tick := .ranging { it with done := done } }
    | _ => none
  | .finish =>
    match s.tick with
    | .ranging it =>
      if it.owed = [] then some { s with
        manager.slowStart.restoring :=
          it.done.foldl (fun r id => r.erase id) s.manager.slowStart.restoring
        tick := .idle }
      else none
    | _ => none
  | .begin id =>
    if s.tick.locked then none
    else some (if id ∈ s.manager.slowStart.restoring then
      { s with cancelled := Function.update s.cancelled id false }
    else
      let manager := s.manager.beginSlowStart id
      { manager := manager
        tick := s.tick.map fun it => { it with created := id :: it.created }
        cancelled := Function.update s.cancelled id false
        registered := Function.update s.registered id
          ((manager.slowStart.restoring.lookup id).map RestoreState.targetVnodes) })
  | .cancel id =>
    if s.tick.locked then none
    else some
      { manager := s.manager.cancelSlowStart id
        tick := s.tick.map fun it => it.without id
        cancelled := Function.update s.cancelled id true
        registered := Function.update s.registered id none }

/-! ### What is promised, and when -/

/-- The tick is about to write the count of this backend. -/
def Tick.writes (tick : Tick) (b : UInt32) : Bool :=
  match tick with
  | .unlocked _ id _ _ => id == b
  | _ => false

/-- The tick will delete this id at its end. -/
def Tick.finishes (tick : Tick) (b : UInt32) : Bool :=
  match tick with
  | .idle => false
  | .ranging it => decide (b ∈ it.done)
  | .unlocked it _ _ _ => decide (b ∈ it.done)
  | .written it id newCount targetVnodes =>
    decide (b ∈ it.done) || (id == b && decide (newCount ≥ targetVnodes))

/-- No restoration is cancelled while its count is being written, and none is registered while
the tick still holds the id of its predecessor as finished. -/
def OutsideWindows (s : Race F) : Event F → Prop
  | .cancel id => s.tick.writes id = false
  | .begin id => id ∈ s.manager.slowStart.restoring ∨ s.tick.finishes id = false
  | _ => True

instance (s : Race F) (e : Event F) : Decidable (OutsideWindows s e) := by
  cases e <;> unfold OutsideWindows <;> infer_instance

def Race.count (s : Race F) (b : UInt32) : Option Int := (s.manager.backendInfo b).map Backend.vnodeCount

structure Keeps (s : Race F) (e : Event F) (t : Race F) : Prop where
  untouched : e.ofTick = true → ∀ b, s.cancelled b = true → t.count b = s.count b
  stays : ∀ b target, t.registered b = some target → ∃ rs, t.entry b = some rs ∧ rs.targetVnodes = target
  ends : ∀ b target, s.registered b = some target → t.registered b = some target ∨ e = .cancel b ∨
    e.ofTick = true ∧ ∀ count, t.count b = some count → count = target

structure Tracked (s : Race F) : Prop where
  aimed : Aimed s.manager
  forgotten : ∀ b, s.cancelled b = true → s.entry b = none
  covered : ∀ b target, s.registered b = some target → ∃ rs, s.entry b = some rs ∧ rs.targetVnodes = target
  settled : ∀ b, s.tick.finishes b = true → s.registered b = none
  pending : ∀ it id newCount targetVnodes, s.tick = .unlocked it id newCount targetVnodes →
    newCount ≤ targetVnodes ∧ ∃ rs, s.entry id = some rs ∧ rs.targetVnodes = targetVnodes

/-! ### One step -/

theorem setEntryAt (s : Race F) (id b : UInt32) (rs : RestoreState) :
    (s.setEntry id rs).entry b = if b = id then some rs else s.entry b := by
  unfold Race.entry Race.setEntry
  by_cases same : b = id
  · subst same
    simp
  · simp [same, AList.lookup_insert_ne same]

theorem finishesMap (tick : Tick) (b : UInt32) {f : Range → Range} (same : ∀ it, (f it).done = it.done) :
    (tick.map f).finishes b = tick.finishes b := by
  cases tick <;> simp [Tick.map, Tick.finishes, same]

theorem mapUnlocked {tick : Tick} {f : Range → Range} {jt : Range} {j : UInt32} {n goal : Int}
    (shape : tick.map f = .unlocked jt j n goal) : ∃ it, tick = .unlocked it j n goal := by
  cases tick with
  | unlocked it k m aim =>
    cases shape
    exact ⟨it, rfl⟩
  | idle => contradiction
  | ranging it => contradiction
  | written it k m aim => contradiction

theorem writesUnlocked {tick : Tick} {b : UInt32} (writing : tick.writes b = true) :
    ∃ it n goal, tick = .unlocked it b n goal := by
  cases tick with
  | unlocked it k n goal =>
    cases eq_of_beq writing
    exact ⟨it, n, goal, rfl⟩
  | idle => contradiction
  | ranging it => contradiction
  | written it k n goal => contradiction

theorem quietKeeps {s t : Race F} {e : Event F} (tracked : Tracked t)
    (backends : t.manager.backends = s.manager.backends) (registered : t.registered = s.registered) :
    Keeps s e t := by
  have count : ∀ b, t.count b = s.count b := fun b => by
    unfold Race.count Manager.backendInfo
    rw [backends]
  exact ⟨fun _ b _ => count b, tracked.covered, fun b target held => .inl (by rw [registered, held])⟩

theorem producedTracked {s : Race F} (tracked : Tracked s) {id : UInt32} {rs : RestoreState}
    (found : s.entry id = some rs) (after : RestoreState) (target : after.targetVnodes = rs.targetVnodes)
    {it : Range} (ranging : s.tick = .ranging it) (tick : Tick) (kept : ∀ b, tick.finishes b = decide (b ∈ it.done))
    (pending : ∀ jt j newCount targetVnodes, tick = .unlocked jt j newCount targetVnodes →
      newCount ≤ targetVnodes ∧ j = id ∧ rs.targetVnodes = targetVnodes) :
    Tracked { s.setEntry id after with tick := tick } where
  aimed := by
    intro b other held
    have held : (s.setEntry id after).entry b = some other := held
    rw [setEntryAt] at held
    split at held
    · cases held
      rw [target]
      exact tracked.aimed id rs found
    · exact tracked.aimed b other held
  forgotten := by
    intro b cancelled
    have missing := tracked.forgotten b cancelled
    show (s.setEntry id after).entry b = none
    rw [setEntryAt, if_neg (by rintro rfl; simp [found] at missing), missing]
  covered := by
    intro b goal registered
    obtain ⟨old, held, same⟩ := tracked.covered b goal registered
    show ∃ rs, (s.setEntry id after).entry b = some rs ∧ rs.targetVnodes = goal
    rw [setEntryAt]
    split
    · subst b
      cases found.symm.trans held
      exact ⟨after, rfl, target.trans same⟩
    · exact ⟨old, held, same⟩
  settled := by
    intro b finishing
    refine tracked.settled b ?_
    rw [ranging]
    exact (kept b).symm.trans finishing
  pending := by
    intro jt j newCount targetVnodes shape
    obtain ⟨below, same, goal⟩ := pending jt j newCount targetVnodes shape
    subst same
    refine ⟨below, after, ?_, target.trans goal⟩
    show (s.setEntry j after).entry j = some after
    rw [setEntryAt, if_pos rfl]

theorem clearedAt (registered : UInt32 → Option Int) (id b : UInt32) (newCount : Int) :
    (if registered id = some newCount then Function.update registered id none else registered) b =
      if b = id ∧ registered b = some newCount then none else registered b := by
  by_cases same : b = id
  · subst same
    by_cases reached : registered b = some newCount
    · simp [reached]
    · simp [reached]
  · split <;> simp [same]

theorem setVnodeCountCount (rt : Runtime) (m : Manager F) (id b : UInt32) (count : Int) :
    ((m.setVnodeCount rt id count).backendInfo b).map Backend.vnodeCount = if b = id then
      ((m.backendInfo id).map fun _ => if count < 1 then 1 else count)
    else (m.backendInfo b).map Backend.vnodeCount := by
  rw [setVnodeCountInfo]
  split
  · rw [Option.map_map]
    rfl
  · rfl

/-- A registration of the backend whose count is pending has the target of its entry. -/
theorem pendingGoal {s : Race F} (tracked : Tracked s) {it : Range} {id : UInt32} {newCount targetVnodes : Int}
    (unlocked : s.tick = .unlocked it id newCount targetVnodes) {goal : Int} (held : s.registered id = some goal) :
    goal = targetVnodes ∧ newCount ≤ targetVnodes ∧ 1 ≤ goal := by
  obtain ⟨below, rs, found, target⟩ := tracked.pending it id newCount targetVnodes unlocked
  obtain ⟨other, again, aim⟩ := tracked.covered id goal held
  have positive := tracked.aimed id other again
  cases found.symm.trans again
  exact ⟨by rw [← aim, target], below, by omega⟩

theorem writeSettled {s : Race F} (tracked : Tracked s) {it : Range} {id : UInt32} {newCount targetVnodes : Int}
    (unlocked : s.tick = .unlocked it id newCount targetVnodes) {b : UInt32}
    (finishing : (Tick.written it id newCount targetVnodes).finishes b = true) :
    (if b = id ∧ s.registered b = some newCount then none else s.registered b) = none := by
  split
  · rfl
  · rename_i differs
    simp only [Tick.finishes, Bool.or_eq_true, Bool.and_eq_true, beq_iff_eq, decide_eq_true_eq] at finishing
    rcases finishing with inside | ⟨same, reached⟩
    · exact tracked.settled b (by simp [unlocked, Tick.finishes, inside])
    · subst same
      by_contra still
      obtain ⟨goal, held⟩ := Option.ne_none_iff_exists'.mp still
      obtain ⟨aim, below, _⟩ := pendingGoal tracked unlocked held
      exact differs ⟨rfl, by rw [held, aim, le_antisymm below reached]⟩

theorem writeTracked {s : Race F} (tracked : Tracked s) (rt : Runtime) {it : Range} {id : UInt32}
    {newCount targetVnodes : Int} (unlocked : s.tick = .unlocked it id newCount targetVnodes) {t : Race F}
    (manager : t.manager = s.manager.setVnodeCount rt id newCount)
    (tick : t.tick = .written it id newCount targetVnodes) (cancelled : t.cancelled = s.cancelled)
    (registered : ∀ b, t.registered b =
      if b = id ∧ s.registered b = some newCount then none else s.registered b) :
    Tracked t ∧ Keeps s (.write rt) t := by
  obtain ⟨_, rs, found, _⟩ := tracked.pending it id newCount targetVnodes unlocked
  have table : t.manager.slowStart = s.manager.slowStart := by rw [manager, setVnodeCountSlowStart]
  have entry : ∀ b, t.entry b = s.entry b := fun b => by rw [Race.entry, table, Race.entry]
  have covered : ∀ b goal, t.registered b = some goal → ∃ rs, t.entry b = some rs ∧ rs.targetVnodes = goal := by
    intro b goal held
    rw [registered] at held
    split at held
    · contradiction
    · rw [entry]
      exact tracked.covered b goal held
  have next : Tracked t := by
    refine ⟨?_, ?_, covered, ?_, ?_⟩
    · rw [Aimed, table]
      exact tracked.aimed
    · intro b gone
      rw [entry]
      exact tracked.forgotten b (cancelled ▸ gone)
    · intro b finishing
      rw [registered]
      exact writeSettled tracked unlocked (tick ▸ finishing)
    · intro jt j n goal shape
      rw [tick] at shape
      contradiction
  refine ⟨next, ⟨fun _ b gone => ?_, covered, fun b goal held => ?_⟩⟩
  · have other : b ≠ id := by
      rintro rfl
      simp [tracked.forgotten b gone] at found
    unfold Race.count
    rw [manager, setVnodeCountCount, if_neg other]
  · by_cases reached : b = id ∧ s.registered b = some newCount
    · refine .inr (.inr ⟨rfl, fun count set => ?_⟩)
      obtain ⟨rfl, target⟩ := reached
      cases held.symm.trans target
      obtain ⟨_, _, positive⟩ := pendingGoal tracked unlocked held
      unfold Race.count at set
      rw [manager, setVnodeCountCount, if_pos rfl] at set
      obtain ⟨_, _, written⟩ := Option.map_eq_some_iff.mp set
      rw [← written]
      split <;> omega
    · left
      rw [registered, if_neg reached, held]

theorem movedTracked {s : Race F} (tracked : Tracked s) {e : Event F} {tick : Tick}
    (kept : ∀ b, tick.finishes b = true → s.tick.finishes b = true)
    (idle : ∀ it id newCount targetVnodes, tick ≠ .unlocked it id newCount targetVnodes) :
    Tracked { s with tick := tick } ∧ Keeps s e { s with tick := tick } := by
  have next : Tracked { s with tick := tick } :=
    ⟨tracked.aimed, tracked.forgotten, tracked.covered, fun b finishing => tracked.settled b (kept b finishing),
      fun it id newCount targetVnodes shape => absurd shape (idle it id newCount targetVnodes)⟩
  exact ⟨next, quietKeeps next rfl rfl⟩

theorem finishTracked {s t : Race F} (tracked : Tracked s) {it : Range} (ranging : s.tick = .ranging it)
    (backends : t.manager.backends = s.manager.backends) (tick : t.tick = .idle)
    (entry : ∀ b, t.entry b = if b ∈ it.done then none else s.entry b)
    (cancelled : t.cancelled = s.cancelled) (registered : t.registered = s.registered) :
    Tracked t ∧ Keeps s .finish t := by
  have before : ∀ b rs, t.entry b = some rs → s.entry b = some rs := by
    intro b rs held
    rw [entry] at held
    split at held
    · contradiction
    · exact held
  have next : Tracked t := by
    refine ⟨fun b rs held => tracked.aimed b rs (before b rs held), ?_, ?_, ?_, ?_⟩
    · intro b gone
      rw [entry, tracked.forgotten b (cancelled ▸ gone), ite_self]
    · intro b goal held
      rw [registered] at held
      -- a finished id is registered no more
      have kept : b ∉ it.done := by
        intro inside
        have settled := tracked.settled b (by simp [ranging, Tick.finishes, inside])
        simp [settled] at held
      rw [entry, if_neg kept]
      exact tracked.covered b goal held
    · intro b finishing
      rw [tick] at finishing
      contradiction
    · intro jt j n goal shape
      rw [tick] at shape
      contradiction
  exact ⟨next, quietKeeps next backends registered⟩

/-- A call from outside the tick changes what is known of one backend only. -/
theorem callTracked {s t : Race F} (tracked : Tracked s) {e : Event F} {id : UInt32} {f : Range → Range}
    (outside : e.ofTick = false) (tick : t.tick = s.tick.map f) (same : ∀ it, (f it).done = it.done)
    (entries : ∀ b, b ≠ id → t.entry b = s.entry b)
    (flags : ∀ b, b ≠ id → t.cancelled b = s.cancelled b)
    (goals : ∀ b, b ≠ id → t.registered b = s.registered b)
    (aimed : ∀ rs, t.entry id = some rs → 1 ≤ rs.targetVnodes)
    (forgotten : t.cancelled id = true → t.entry id = none)
    (covered : ∀ goal, t.registered id = some goal → ∃ rs, t.entry id = some rs ∧ rs.targetVnodes = goal)
    (settled : s.tick.finishes id = true → t.registered id = none)
    (unwritten : s.tick.writes id = false)
    (ended : ∀ goal, s.registered id = some goal → e = .cancel id) : Tracked t ∧ Keeps s e t := by
  have everywhere : ∀ {P : UInt32 → Prop}, P id → (∀ b, b ≠ id → P b) → ∀ b, P b := by
    intro P here others b
    by_cases chosen : b = id
    · exact chosen ▸ here
    · exact others b chosen
  have cover := everywhere (P := fun b => ∀ goal, t.registered b = some goal →
    ∃ rs, t.entry b = some rs ∧ rs.targetVnodes = goal) covered fun b other goal held => by
      rw [goals b other] at held
      rw [entries b other]
      exact tracked.covered b goal held
  have next : Tracked t := by
    refine ⟨everywhere aimed fun b other rs held => ?_, everywhere forgotten fun b other flagged => ?_, cover,
      everywhere ?_ fun b other finishing => ?_, ?_⟩
    · exact tracked.aimed b rs ((entries b other).symm.trans held)
    · rw [entries b other]
      exact tracked.forgotten b ((flags b other).symm.trans flagged)
    · rw [tick, finishesMap s.tick id same]
      exact settled
    · rw [tick, finishesMap s.tick b same] at finishing
      rw [goals b other]
      exact tracked.settled b finishing
    · intro jt j n goal shape
      rw [tick] at shape
      obtain ⟨it, held⟩ := mapUnlocked shape
      have other : j ≠ id := by
        rintro rfl
        simp [held, Tick.writes] at unwritten
      rw [entries j other]
      exact tracked.pending it j n goal held
  refine ⟨next, ⟨fun ticking => by rw [outside] at ticking; contradiction, cover, ?_⟩⟩
  refine everywhere (fun goal held => .inr (.inl (ended goal held))) fun b other goal held => .inl ?_
  rw [goals b other, held]

theorem cancelTracked {s t : Race F} (tracked : Tracked s) {id : UInt32} (quiet : s.tick.writes id = false)
    (manager : t.manager = s.manager.cancelSlowStart id)
    (tick : t.tick = s.tick.map fun it => it.without id)
    (cancelled : t.cancelled = Function.update s.cancelled id true)
    (registered : t.registered = Function.update s.registered id none) :
    Tracked t ∧ Keeps s (.cancel id) t := by
  have gone : t.entry id = none := by
    rw [Race.entry, manager]
    exact AList.lookup_erase id _
  refine callTracked tracked rfl tick (fun _ => rfl) ?_ ?_ ?_ ?_ (fun _ => gone) ?_ ?_ quiet (fun _ _ => rfl)
  · intro b other
    rw [Race.entry, manager]
    exact AList.lookup_erase_ne other
  · intro b other
    rw [cancelled, Function.update_of_ne other]
  · intro b other
    rw [registered, Function.update_of_ne other]
  · intro rs held
    rw [gone] at held
    contradiction
  · intro goal held
    simp [registered] at held
  · intro _
    simp [registered]

theorem beginTracked {s t : Race F} (tracked : Tracked s) {id : UInt32}
    (absent : id ∉ s.manager.slowStart.restoring) (quiet : s.tick.finishes id = false)
    (manager : t.manager = s.manager.beginSlowStart id) {f : Range → Range}
    (tick : t.tick = s.tick.map f) (same : ∀ it, (f it).done = it.done)
    (cancelled : t.cancelled = Function.update s.cancelled id false)
    (registered : t.registered = Function.update s.registered id
      ((t.entry id).map RestoreState.targetVnodes)) :
    Tracked t ∧ Keeps s (.begin id) t := by
  have missing : s.entry id = none := AList.lookup_eq_none.mpr absent
  have unwritten : s.tick.writes id = false := by
    by_contra writing
    obtain ⟨it, n, goal, held⟩ := writesUnlocked (Bool.eq_true_of_not_eq_false writing)
    obtain ⟨_, rs, found, _⟩ := tracked.pending it id n goal held
    rw [missing] at found
    contradiction
  have unregistered : s.registered id = none := by
    by_contra still
    obtain ⟨goal, held⟩ := Option.ne_none_iff_exists'.mp still
    obtain ⟨rs, found, _⟩ := tracked.covered id goal held
    rw [missing] at found
    contradiction
  refine callTracked tracked rfl tick same ?_ ?_ ?_ ?_ ?_ ?_ ?_ unwritten ?_
  · intro b other
    rw [Race.entry, manager, Manager.beginSlowStart, if_neg absent]
    exact AList.lookup_insert_ne other
  · intro b other
    rw [cancelled, Function.update_of_ne other]
  · intro b other
    rw [registered, Function.update_of_ne other]
  · intro rs held
    rw [Race.entry, manager] at held
    exact beginSlowStartAimed tracked.aimed id id rs held
  · intro flagged
    simp [cancelled] at flagged
  · intro goal held
    rw [registered, Function.update_self] at held
    exact Option.map_eq_some_iff.mp held
  · intro finishing
    rw [quiet] at finishing
    contradiction
  · intro goal held
    rw [unregistered] at held
    contradiction

/-! ### Runs -/

variable [GoFloat F]

theorem nextTracked {s t : Race F} (tracked : Tracked s) {it : Range} (ranging : s.tick = .ranging it)
    {id : UInt32} {rs : RestoreState} (found : s.entry id = some rs) {errorRate : Option (UInt32 → F)}
    (produced : t = s.produce it id rs errorRate) :
    Tracked t ∧ Keeps s (.next id errorRate) t := by
  subst produced
  unfold Race.produce
  split
  · have next := producedTracked tracked found { rs with paused := true } rfl ranging
      (.ranging (it.without id)) (fun _ => rfl) (fun _ _ _ _ shape => by contradiction)
    exact ⟨next, quietKeeps next rfl rfl⟩
  · dsimp only
    have below : (if wrapInt (rs.currentVnodes + s.manager.slowStart.batchSize) > rs.targetVnodes then rs.targetVnodes
        else wrapInt (rs.currentVnodes + s.manager.slowStart.batchSize)) ≤ rs.targetVnodes := by
      split <;> omega
    generalize (if wrapInt (rs.currentVnodes + s.manager.slowStart.batchSize) > rs.targetVnodes then rs.targetVnodes
      else wrapInt (rs.currentVnodes + s.manager.slowStart.batchSize)) = newCount at below
    have next := producedTracked tracked found
      { rs with paused := false, currentVnodes := newCount } rfl ranging
      (.unlocked (it.without id) id newCount rs.targetVnodes) (fun _ => rfl) (fun jt j n goal shape => by
        cases shape
        exact ⟨below, rfl, rfl⟩)
    exact ⟨next, quietKeeps next rfl rfl⟩

omit [GoFloat F] in
theorem relockTracked {s : Race F} (tracked : Tracked s) {it : Range} {id : UInt32} {newCount targetVnodes : Int}
    (written : s.tick = .written it id newCount targetVnodes) :
    let done := if newCount ≥ targetVnodes then it.done ++ [id] else it.done
    let t : Race F := { s with tick := .ranging { it with done := done } }
    Tracked t ∧ Keeps s .relock t := by
  intro done t
  refine movedTracked tracked (fun b finishing => ?_) (fun _ _ _ _ shape => by contradiction)
  rw [written]
  simp only [done, Tick.finishes, decide_eq_true_eq] at finishing
  simp only [Tick.finishes, Bool.or_eq_true, Bool.and_eq_true, beq_iff_eq, decide_eq_true_eq]
  split at finishing
  · rename_i reached
    rcases List.mem_append.mp finishing with before | last
    · exact .inl before
    · exact .inr ⟨(List.mem_singleton.mp last).symm, reached⟩
  · exact .inl finishing

omit [GoFloat F] in
/-- A begin of a backend that is still restoring only withdraws its cancellation. -/
theorem rebegunTracked {s : Race F} (tracked : Tracked s) (id : UInt32) :
    let t : Race F := { s with cancelled := Function.update s.cancelled id false }
    Tracked t ∧ Keeps s (.begin id) t := by
  intro t
  have flags : ∀ b, t.cancelled b = true → s.cancelled b = true := by
    intro b flagged
    by_cases same : b = id
    · subst same
      simp [t] at flagged
    · exact (Function.update_of_ne same false s.cancelled).symm.trans flagged
  have next : Tracked t :=
    ⟨tracked.aimed, fun b flagged => tracked.forgotten b (flags b flagged), tracked.covered, tracked.settled,
      tracked.pending⟩
  exact ⟨next, quietKeeps next rfl rfl⟩

theorem stepTracked {s t : Race F} {e : Event F} (tracked : Tracked s) (outside : OutsideWindows s e)
    (taken : Does step s e t) : Tracked t ∧ Keeps s e t := by
  cases e with
  | tickStart =>
    simp only [Does, step] at taken
    split at taken <;> try contradiction
    cases taken
    exact movedTracked tracked (fun b finishing => by simp [Tick.finishes] at finishing)
      (fun _ _ _ _ shape => by contradiction)
  | next id errorRate =>
    simp only [Does, step] at taken
    split at taken <;> try contradiction
    rename_i it rs ranging found
    split at taken <;> try contradiction
    exact nextTracked tracked ranging found (Option.some.inj taken).symm
  | write rt =>
    simp only [Does, step] at taken
    split at taken <;> try contradiction
    rename_i it id newCount targetVnodes unlocked
    cases taken
    exact writeTracked tracked rt unlocked rfl rfl rfl fun b => clearedAt s.registered id b newCount
  | relock =>
    simp only [Does, step] at taken
    split at taken <;> try contradiction
    rename_i it id newCount targetVnodes written
    cases taken
    exact relockTracked tracked written
  | finish =>
    simp only [Does, step] at taken
    split at taken <;> try contradiction
    rename_i it ranging
    split at taken <;> try contradiction
    cases taken
    exact finishTracked tracked ranging rfl rfl (fun b => eraseAllLookup _ it.done b) rfl rfl
  | begin id =>
    simp only [Does, step] at taken
    split at taken <;> try contradiction
    split at taken
    · cases taken
      exact rebegunTracked tracked id
    · rename_i absent
      cases taken
      have quiet := outside.resolve_left absent
      exact beginTracked tracked absent quiet rfl rfl (fun _ => rfl) rfl rfl
  | cancel id =>
    simp only [Does, step] at taken
    split at taken <;> try contradiction
    cases taken
    exact cancelTracked tracked outside rfl rfl rfl rfl

omit [GoFloat F] in
theorem startTracked {m : Manager F} (aimed : Aimed m) : Tracked (start m) := by
  refine ⟨aimed, ?_, ?_, ?_, ?_⟩
  · intro b flagged
    contradiction
  · intro b goal held
    exact Option.map_eq_some_iff.mp held
  · intro b finishing
    contradiction
  · intro it id newCount targetVnodes shape
    contradiction

theorem keptOutsideWindows {cfg : RingConfig F} {ops m} (reached : Run RingManager.Step (newManager cfg) ops m)
    {es : List (Event F)} {t : Race F} (run : Run (Guarded OutsideWindows (Does step)) (start m) es t) :
    Run (fun s e t => Does step s e t ∧ Keeps s e t) (start m) es t := by
  have both : ∀ (s : Race F) e t, Tracked s → OutsideWindows s e → Does step s e t → Tracked t ∧ Keeps s e t :=
    fun _ _ _ tracked outside taken => stepTracked tracked outside taken
  exact StepRun.guardedAlso (fun s e t tracked outside taken => (both s e t tracked outside taken).1)
    (fun s e t tracked outside taken => (both s e t tracked outside taken).2) run (startTracked (runAimed reached))

/-! ### One backend -/

def oneServer (vnodes : Int) : Manager ℚ :=
  (newManager (load { vnodesPerServer := some vnodes })).addBackend .plain { id := 1, health := true }

def bothServers : Manager ℚ := (oneServer 150).addBackend .plain { id := 2, health := true }

theorem bothReached : Run RingManager.Step
    (newManager (load { vnodesPerServer := some 150 }) : Manager ℚ)
    [(.plain, .addBackend { id := 1, health := true }), (.plain, .addBackend { id := 2, health := true })]
    bothServers := .cons rfl (.cons rfl (.nil _))

/-- Between the two unlocks of one tick a restoration is cancelled, begun again and produced, and the
other one is cancelled. -/
def besideTick : List (Event ℚ) :=
  [.begin 1, .begin 2, .tickStart, .next 1 none, .cancel 2, .write .plain, .begin 2, .relock,
    .next 2 none, .cancel 1, .write .plain, .relock, .finish]

theorem keptBesideTick : ∃ t : Race ℚ, t.cancelled 1 = true ∧ t.registered 2 = some 150 ∧
    t.count 1 = some 15 ∧ t.count 2 = some 15 ∧
    Run (fun s e t => Does step s e t ∧ Keeps s e t) (start bothServers) besideTick t := by
  have done : (StepRun.runGuarded OutsideWindows step (start bothServers) besideTick).any (fun t =>
      decide (t.cancelled 1 = true ∧ t.registered 2 = some 150 ∧ t.count 1 = some 15 ∧
        t.count 2 = some 15)) = true := by decide +kernel
  obtain ⟨t, run, facts⟩ := StepRun.runGuardedAny done
  obtain ⟨cancelled, registered, first, second⟩ := of_decide_eq_true facts
  exact ⟨t, cancelled, registered, first, second, keptOutsideWindows bothReached run⟩

/-- A tick writes a count after the restoration was cancelled, and a tick deletes the
registration that came after the one it finished. -/
theorem brokenInWindows :
    (∃ s t : Race ℚ, Run (Does step) (start (oneServer 150)) [.begin 1, .tickStart, .next 1 none, .cancel 1] s ∧
      Does step s (.write .plain) t ∧ s.cancelled 1 = true ∧ s.count 1 = some 150 ∧ t.count 1 = some 15) ∧
    ∃ t : Race ℚ, Run (Does step) (start (oneServer 15))
      [.begin 1, .tickStart, .next 1 none, .write .plain, .cancel 1, .begin 1, .relock, .finish] t ∧
      t.registered 1 = some 15 ∧ t.entry 1 = none := by
  constructor
  · have late : (List.foldlM step (start (oneServer 150)) [.begin 1, .tickStart, .next 1 none, .cancel 1]).any
        (fun s => (step s (.write .plain)).any fun t =>
          decide (s.cancelled 1 = true ∧ s.count 1 = some 150 ∧ t.count 1 = some 15)) = true := by decide +kernel
    obtain ⟨s, run, written⟩ := (Option.any_eq_true _ _).mp late
    obtain ⟨t, wrote, facts⟩ := (Option.any_eq_true _ _).mp written
    exact ⟨s, t, StepRun.runFoldlM run, wrote, of_decide_eq_true facts⟩
  · have lost : (List.foldlM step (start (oneServer 15)) [.begin 1, .tickStart, .next 1 none, .write .plain,
        .cancel 1, .begin 1, .relock, .finish]).any
        (fun t => decide (t.registered 1 = some 15 ∧ t.entry 1 = none)) = true := by decide +kernel
    obtain ⟨t, run, facts⟩ := (Option.any_eq_true _ _).mp lost
    exact ⟨t, StepRun.runFoldlM run, of_decide_eq_true facts⟩

/-! ### A tick that nothing interrupts -/

theorem oneRuns (rt : Runtime) (errorRate : Option (UInt32 → F)) {s : Race F} {it : Range}
    (ranging : s.tick = .ranging it) {id : UInt32} (owed : id ∈ it.owed) {rs : RestoreState}
    (found : s.entry id = some rs) : ∃ es t jt, (∀ e ∈ es, e.ofTick = true) ∧ Run (Does step) s es t ∧
      t.tick = .ranging jt ∧ jt.owed = it.owed.filter (· ≠ id) ∧
      (t.manager, jt.done) = tickOne rt errorRate (s.manager, it.done) id := by
  have produced : Does step s (.next id errorRate) (s.produce it id rs errorRate) := by
    simp [Does, step, ranging, found, owed]
  have found : s.manager.slowStart.restoring.lookup id = some rs := found
  cases above : GoFloat.gt (errorPct errorRate id) s.manager.slowStart.maxErrorPct with
  | true =>
    refine ⟨[.next id errorRate], _, it.without id, by simp [Event.ofTick], .cons produced (.nil _), ?_, rfl, ?_⟩
    · simp [Race.produce, above]
    · rw [tickOnePauses rt it.done found above]
      simp [Race.produce, above, Race.setEntry, restored, Range.without]
  | false =>
    have unlocked : s.produce it id rs errorRate = { s.setEntry id
        { rs with paused := false, currentVnodes := nextCount s.manager.slowStart.batchSize rs } with
        tick := .unlocked (it.without id) id (nextCount s.manager.slowStart.batchSize rs) rs.targetVnodes } := by
      simp [Race.produce, above, nextCount]
    rw [unlocked] at produced
    refine ⟨[.next id errorRate, .write rt, .relock], _, _, by simp [Event.ofTick],
      .cons produced (.cons rfl (.cons rfl (.nil _))), rfl, rfl, ?_⟩
    rw [tickOneAdvances rt it.done found above]
    rfl

theorem rangeRuns (rt : Runtime) (errorRate : Option (UInt32 → F)) {ids : List UInt32} (distinct : ids.Nodup)
    {s : Race F} {it : Range} (ranging : s.tick = .ranging it) (owed : ∀ id, id ∈ it.owed ↔ id ∈ ids)
    (found : ∀ id ∈ ids, (s.entry id).isSome) :
    ∃ es t jt, (∀ e ∈ es, e.ofTick = true) ∧ Run (Does step) s es t ∧ t.tick = .ranging jt ∧ jt.owed = [] ∧
      (t.manager, jt.done) = ids.foldl (tickOne rt errorRate) (s.manager, it.done) := by
  induction ids generalizing s it with
  | nil =>
    refine ⟨[], s, it, by simp, .nil s, ranging, ?_, rfl⟩
    exact List.eq_nil_iff_forall_not_mem.mpr fun id inside => by simpa using (owed id).mp inside
  | cons id rest ih =>
    obtain ⟨fresh, distinct⟩ := List.nodup_cons.mp distinct
    obtain ⟨rs, here⟩ := Option.isSome_iff_exists.mp (found id List.mem_cons_self)
    obtain ⟨es, t, jt, ticking, run, tick, left, same⟩ :=
      oneRuns rt errorRate ranging ((owed id).mpr List.mem_cons_self) here
    have entries : ∀ k ∈ rest, (t.entry k).isSome := by
      intro k inside
      have other : k ≠ id := by
        rintro rfl
        exact fresh inside
      have kept := congrArg Seen.entry (tickOneElsewhere rt errorRate (s.manager, it.done) id k other)
      rw [← same] at kept
      have kept : t.entry k = s.entry k := kept
      rw [kept]
      exact found k (List.mem_cons_of_mem id inside)
    have remaining : ∀ k, k ∈ jt.owed ↔ k ∈ rest := by
      intro k
      rw [left, List.mem_filter, owed k, List.mem_cons]
      by_cases same : k = id
      · subst same
        simp [fresh]
      · simp [same]
    obtain ⟨later, u, kt, tickingLater, runLater, last, none_, fold⟩ := ih distinct tick remaining entries
    refine ⟨es ++ later, u, kt, ?_, StepRun.runAppend run runLater, last, none_, ?_⟩
    · intro e inside
      exact (List.mem_append.mp inside).elim (ticking e) (tickingLater e)
    · rw [fold, same, List.foldl_cons]

theorem tickRuns (rt : Runtime) (errorRate : Option (UInt32 → F)) {s : Race F} (idle : s.tick = .idle) :
    ∃ es t, (∀ e ∈ es, e.ofTick = true) ∧ Run (Does step) s es t ∧ t.tick = .idle ∧
      t.manager = s.manager.slowStartTick rt errorRate := by
  have keys := rt.keyOrderPerm s.manager.slowStart.restoring.keys
  have started : Does step s .tickStart
      { s with tick := .ranging ⟨s.manager.slowStart.restoring.keys, [], []⟩ } := by
    simp [Does, step, idle]
  obtain ⟨es, t, it, ticking, run, ranging, none_, fold⟩ := rangeRuns rt errorRate
    (keys.nodup_iff.mpr s.manager.slowStart.restoring.keys_nodup)
    (s := { s with tick := .ranging ⟨s.manager.slowStart.restoring.keys, [], []⟩ }) rfl
    (fun id => keys.mem_iff.symm) (fun id inside => by
      rw [keys.mem_iff, ← AList.mem_keys] at inside
      exact AList.lookup_isSome.mpr inside)
  have finished : Does step t .finish { t with
      manager.slowStart.restoring := it.done.foldl (fun r id => r.erase id) t.manager.slowStart.restoring
      tick := .idle } := by
    simp [Does, step, ranging, none_]
  refine ⟨.tickStart :: (es ++ [.finish]), _, ?_, .cons started (StepRun.runSnoc run finished), rfl, ?_⟩
  · intro e inside
    simp only [List.mem_cons, List.mem_append, List.mem_nil_iff, or_false] at inside
    rcases inside with rfl | inside | rfl
    · rfl
    · exact ticking e inside
    · rfl
  · unfold Manager.slowStartTick
    rw [← fold]

end OmegaLb.SlowStartRace
