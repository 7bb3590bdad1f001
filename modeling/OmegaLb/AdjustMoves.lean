import OmegaLb.VnodeFloor

/-! One adjustment moves a single vnode between the two extremes of the load, or nothing; so no run
without another writer of counts creates a vnode, loses one, or takes the last one of a backend. It moves
one when the load asks for it, unless the total of the loads leaves an int64 and turns the threshold test. -/
namespace OmegaLb.AdjustMoves
open RingManager RingInvariant VnodeFloor
open StepRun (Run Guarded guardedInvariant)
open Config (RingConfig load)

variable {F : Type}

structure Candidate (m : Manager F) (b : Backend) : Prop where
  registered : m.backends.lookup b.id = some b
  healthy : b.health = true
  stateless : b.stateful = false
  staying : b.draining = false

structure Moves (m next : Manager F) (source sink : Backend) : Prop where
  hot : Candidate m source
  cool : Candidate m sink
  hottest : ∀ b, Candidate m b → b.activeReqs ≤ source.activeReqs
  coolest : ∀ b, Candidate m b → sink.activeReqs ≤ b.activeReqs
  apart : source.id ≠ sink.id
  counts : ∀ id, next.backends.lookup id = (m.backends.lookup id).map fun b =>
    { b with vnodeCount := b.vnodeCount + if id = source.id then -1 else if id = sink.id then 1 else 0 }
  rebuilt : Sound next
  rest : next.cfg = m.cfg ∧ next.reqCount = m.reqCount ∧ next.slowStart = m.slowStart

/-- Between equals the iteration order of the map decides. -/
def hottestOf (rt : Runtime) (m : Manager F) : Option Backend :=
  ((rt.order (GoMap.values m.backends)).filter Backend.adjustable).foldl hotter none

def coolestOf (rt : Runtime) (m : Manager F) : Option Backend :=
  ((rt.order (GoMap.values m.backends)).filter Backend.adjustable).foldl cooler none

def totalVnodes (bs : GoMap UInt32 Backend) : Int := ((GoMap.values bs).map Backend.vnodeCount).sum

/-! ### The two extremes -/

theorem candidateListed {m : Manager F} (sound : Sound m) (rt : Runtime) (b : Backend) :
    b ∈ (rt.order (GoMap.values m.backends)).filter Backend.adjustable ↔ Candidate m b := by
  rw [List.mem_filter, (rt.orderPerm _).mem_iff, GoMap.memValues]
  constructor
  · rintro ⟨⟨k, found⟩, adjustable⟩
    simp only [Backend.adjustable, Bool.and_eq_true, Bool.not_eq_true'] at adjustable
    exact ⟨sound.keyed k b found ▸ found, adjustable.1.1, adjustable.1.2, adjustable.2⟩
  · rintro ⟨found, healthy, stateless, staying⟩
    exact ⟨⟨b.id, found⟩, by simp [Backend.adjustable, healthy, stateless, staying]⟩

theorem hottestExtreme {m : Manager F} (sound : Sound m) {rt : Runtime} {source : Backend}
    (found : hottestOf rt m = some source) :
    Candidate m source ∧ ∀ b, Candidate m b → b.activeReqs ≤ source.activeReqs := by
  rw [hottestOf, hotterKeeps] at found
  obtain ⟨origin, above, _⟩ := FirstLeast.keptLeast _ none found
  have member := origin.resolve_right (by simp)
  refine ⟨(candidateListed sound rt source).mp member, fun b candidate => ?_⟩
  have below := above b ((candidateListed sound rt b).mpr candidate)
  omega

theorem coolestExtreme {m : Manager F} (sound : Sound m) {rt : Runtime} {sink : Backend}
    (found : coolestOf rt m = some sink) :
    Candidate m sink ∧ ∀ b, Candidate m b → sink.activeReqs ≤ b.activeReqs := by
  rw [coolestOf, coolerKeeps] at found
  obtain ⟨origin, below, _⟩ := FirstLeast.keptLeast _ none found
  have member := origin.resolve_right (by simp)
  exact ⟨(candidateListed sound rt sink).mp member,
    fun b candidate => below b ((candidateListed sound rt b).mpr candidate)⟩

/-- Where all loads are equal both passes stay at the first backend. -/
theorem extremesApart {m : Manager F} (sound : Sound m) {rt : Runtime} {source sink : Backend}
    (hot : hottestOf rt m = some source) (cool : coolestOf rt m = some sink) :
    source.id ≠ sink.id ↔ source.activeReqs ≠ sink.activeReqs := by
  obtain ⟨isSource, above⟩ := hottestExtreme sound hot
  obtain ⟨isSink, below⟩ := coolestExtreme sound cool
  constructor
  · intro apart level
    have flat : ∀ b ∈ (rt.order (GoMap.values m.backends)).filter Backend.adjustable,
        b.activeReqs = sink.activeReqs := by
      intro b listed
      have candidate := (candidateListed sound rt b).mp listed
      exact Int.le_antisymm (level ▸ above b candidate) (below b candidate)
    rw [hottestOf, hotterKeeps] at hot
    rw [coolestOf, coolerKeeps] at cool
    cases listed : (rt.order (GoMap.values m.backends)).filter Backend.adjustable with
    | nil => simp [listed] at hot
    | cons first rest =>
      rw [listed] at hot cool flat
      obtain ⟨head, tail⟩ := List.forall_mem_cons.mp flat
      rw [FirstLeast.keptFirst fun b inside => by rw [tail b inside, head]] at hot cool
      exact apart (by rw [← Option.some.inj hot, ← Option.some.inj cool])
  · intro differ same
    have one : some source = some sink := by rw [← isSource.registered, ← isSink.registered, same]
    exact differ (by rw [Option.some.inj one])

/-! ### One adjustment -/

variable [GoFloat F]

/-- The tests of adjust, whose mean is over the total of ActiveReqs as an int64. -/
def Tested (m : Manager F) (source sink : Backend) : Prop :=
  source.activeReqs ≠ sink.activeReqs ∧
    GoFloat.gt (GoFloat.ofInt source.activeReqs) (m.cfg.adjustThreshold * m.mean) = true ∧
    1 < source.vnodeCount

def totalLoad (m : Manager F) : Int := ((GoMap.values m.backends).map Backend.activeReqs).sum

/-- The mean ActiveReqs of all registered backends. -/
def fullMean (m : Manager F) : F := GoFloat.ofInt (totalLoad m) / GoFloat.ofInt (max64 (GoMap.size m.backends) 1)

def Overloaded (m : Manager F) (source sink : Backend) : Prop :=
  source.activeReqs ≠ sink.activeReqs ∧
    GoFloat.gt (GoFloat.ofInt source.activeReqs) (m.cfg.adjustThreshold * fullMean m) = true ∧
    1 < source.vnodeCount

def moved (rt : Runtime) (m : Manager F) (source sink : Backend) : Manager F :=
  let backends := GoMap.modify m.backends source.id (Backend.addVnodes (-1))
  { m with backends := GoMap.modify backends sink.id (Backend.addVnodes 1) }.rebuild rt

theorem adjustCases (rt : Runtime) {m : Manager F} (sound : Sound m) :
    (∃ source sink, hottestOf rt m = some source ∧ coolestOf rt m = some sink ∧ Tested m source sink ∧
        m.adjust rt = moved rt m source sink) ∨
      (∀ source sink, hottestOf rt m = some source → coolestOf rt m = some sink → ¬ Tested m source sink) ∧
        m.adjust rt = m := by
  unfold Manager.adjust
  dsimp only
  split
  · rename_i source sink hot cool
    have apart := extremesApart sound hot cool
    have only_ : ¬ Tested m source sink → ∀ source' sink', hottestOf rt m = some source' →
        coolestOf rt m = some sink' → ¬ Tested m source' sink' := by
      intro calm source' sink' hot' cool'
      cases hot.symm.trans hot'
      cases cool.symm.trans cool'
      exact calm
    split
    · rename_i same
      exact .inr ⟨only_ fun beyond => apart.mpr beyond.1 same, rfl⟩
    · rename_i differ
      split
      · rename_i above
        split
        · rename_i several
          exact .inl ⟨source, sink, hot, cool, ⟨apart.mp differ, above, several⟩, rfl⟩
        · rename_i last
          exact .inr ⟨only_ fun beyond => last beyond.2.2, rfl⟩
      · rename_i within
        exact .inr ⟨only_ fun beyond => within beyond.2.1, rfl⟩
  · rename_i nobody
    exact .inr ⟨fun source sink hot cool => (nobody source sink hot cool).elim, rfl⟩

omit [GoFloat F] in
theorem movedCounts (rt : Runtime) (m : Manager F) {source sink : Backend} (apart : source.id ≠ sink.id)
    (id : UInt32) : (moved rt m source sink).backends.lookup id = (m.backends.lookup id).map fun b =>
      { b with vnodeCount := b.vnodeCount + if id = source.id then -1 else if id = sink.id then 1 else 0 } := by
  rw [moved, rebuildBackends, GoMap.lookupModify, GoMap.lookupModify, GoMap.lookupModify, if_neg apart.symm]
  by_cases atSink : id = sink.id
  · subst atSink
    simp only [if_neg apart.symm]
    rfl
  · by_cases atSource : id = source.id
    · subst atSource
      simp only [if_neg atSink]
      rfl
    · simp only [if_neg atSink, if_neg atSource, Int.add_zero]
      exact Option.map_id'.symm

omit [GoFloat F] in
theorem movedMoves {rt : Runtime} {m : Manager F} (sound : Sound m) {source sink : Backend}
    (hot : hottestOf rt m = some source) (cool : coolestOf rt m = some sink)
    (differ : source.activeReqs ≠ sink.activeReqs) : Moves m (moved rt m source sink) source sink := by
  have apart := (extremesApart sound hot cool).mpr differ
  obtain ⟨isSource, above⟩ := hottestExtreme sound hot
  obtain ⟨isSink, below⟩ := coolestExtreme sound cool
  have keyed := keyedModify (keyedModify sound.keyed source.id (Backend.addVnodes (-1)) fun _ => rfl) sink.id
    (Backend.addVnodes 1) fun _ => rfl
  exact ⟨isSource, isSink, above, below, apart, movedCounts rt m apart, rebuildSound rt keyed, rfl, rfl, rfl⟩

omit [GoFloat F] in
theorem movesOnce {m next : Manager F} {source sink source' sink' : Backend} (one : Moves m next source sink)
    (other : Moves m next source' sink') : source = source' ∧ sink = sink' := by
  have shift (id : UInt32) {b : Backend} (found : m.backends.lookup id = some b) :
      (if id = source.id then -1 else if id = sink.id then 1 else 0 : Int) =
        if id = source'.id then -1 else if id = sink'.id then 1 else 0 := by
    have same := (one.counts id).symm.trans (other.counts id)
    rw [found, Option.map_some, Option.map_some, Option.some.injEq] at same
    have counts := congrArg Backend.vnodeCount same
    dsimp only at counts
    omega
  have atSource := shift source.id one.hot.registered
  have atSink := shift sink.id one.cool.registered
  rw [if_pos rfl] at atSource
  rw [if_neg one.apart.symm, if_pos rfl] at atSink
  have sameSource : source.id = source'.id := by
    by_contra differ
    rw [if_neg differ] at atSource
    split at atSource <;> omega
  have sameSink : sink.id = sink'.id := by
    by_contra differ
    rw [if_neg differ] at atSink
    split at atSink <;> omega
  have first := one.hot.registered
  have second := one.cool.registered
  rw [sameSource, other.hot.registered] at first
  rw [sameSink, other.cool.registered] at second
  exact ⟨(Option.some.inj first).symm, (Option.some.inj second).symm⟩

omit [GoFloat F] in
theorem movesChange {m next : Manager F} {source sink : Backend} (moves : Moves m next source sink) :
    next ≠ m := by
  rintro rfl
  have at_ := moves.counts source.id
  rw [moves.hot.registered, Option.map_some, Option.some.injEq, if_pos rfl] at at_
  have counts := congrArg Backend.vnodeCount at_
  dsimp only at counts
  omega

theorem adjustTested (rt : Runtime) {m : Manager F} (sound : Sound m) :
    (m.adjust rt = m ∨ ∃ source sink, Moves m (m.adjust rt) source sink) ∧
    ∀ source sink, Moves m (m.adjust rt) source sink ↔
      hottestOf rt m = some source ∧ coolestOf rt m = some sink ∧ Tested m source sink := by
  rcases adjustCases rt sound with ⟨source, sink, hot, cool, beyond, result⟩ | ⟨calm, result⟩
  · have moves := result ▸ movedMoves sound hot cool beyond.1
    refine ⟨.inr ⟨source, sink, moves⟩, fun source' sink' => ⟨fun other => ?_, fun chosen => ?_⟩⟩
    · obtain ⟨rfl, rfl⟩ := movesOnce moves other
      exact ⟨hot, cool, beyond⟩
    · obtain ⟨hot', cool', _⟩ := chosen
      cases hot.symm.trans hot'
      cases cool.symm.trans cool'
      exact moves
  · refine ⟨.inl result, fun source sink => ⟨fun moves => (movesChange moves result).elim, fun chosen => ?_⟩⟩
    obtain ⟨hot, cool, beyond⟩ := chosen
    exact (calm source sink hot cool beyond).elim

/-- What one adjustment should do: nothing, or move one vnode, and that exactly when the hottest
backend is overloaded. -/
structure Adjusts (rt : Runtime) (m : Manager F) : Prop where
  single : m.adjust rt = m ∨ ∃ source sink, Moves m (m.adjust rt) source sink
  exactly_ : ∀ source sink, Moves m (m.adjust rt) source sink ↔
    hottestOf rt m = some source ∧ coolestOf rt m = some sink ∧ Overloaded m source sink

/-- Where the answer counts, the threshold test is not turned by the wrap of the total. -/
def SameVerdict (rt : Runtime) (m : Manager F) : Prop :=
  ∀ source sink, hottestOf rt m = some source → coolestOf rt m = some sink →
    source.activeReqs ≠ sink.activeReqs → 1 < source.vnodeCount →
    GoFloat.gt (GoFloat.ofInt source.activeReqs) (m.cfg.adjustThreshold * m.mean) =
      GoFloat.gt (GoFloat.ofInt source.activeReqs) (m.cfg.adjustThreshold * fullMean m)

theorem totalFits (rt : Runtime) {m : Manager F} (fits : FitsInt (totalLoad m)) : SameVerdict rt m := by
  have total : m.totalActiveReqs = totalLoad m := wrapIntFits fits
  intro source sink _ _ _ _
  rw [Manager.mean, fullMean, total]

theorem adjustExact (rt : Runtime) {m : Manager F} (sound : Sound m) : Adjusts rt m ↔ SameVerdict rt m := by
  obtain ⟨single, tested⟩ := adjustTested rt sound
  constructor
  · intro adjusts source sink hot cool differ several
    have same := (tested source sink).symm.trans (adjusts.exactly_ source sink)
    simp only [hot, cool, Tested, Overloaded, several, true_and, and_true] at same
    rw [and_iff_right differ, and_iff_right differ] at same
    exact Bool.eq_iff_iff.mpr same
  · intro verdict
    refine ⟨single, fun source sink => (tested source sink).trans ?_⟩
    refine and_congr_right fun hot => and_congr_right fun cool => and_congr_right fun differ =>
      and_congr_left fun several => ?_
    rw [verdict source sink hot cool differ several]

/-! ### Runs -/

/-- What no operation of a run may change, at a total of `total`. -/
structure Conserved (total : Int) (m : Manager F) : Prop where
  sound : Sound m
  floor : Floor m.backends
  total : totalVnodes m.backends = total

omit [GoFloat F] in
theorem movesConserve {total : Int} {rt : Runtime} {m : Manager F} {source sink : Backend}
    (held : Conserved total m) (hot : hottestOf rt m = some source) (cool : coolestOf rt m = some sink)
    (differ : source.activeReqs ≠ sink.activeReqs) (several : 1 < source.vnodeCount) :
    Conserved total (moved rt m source sink) := by
  have moves := movedMoves held.sound hot cool differ
  refine ⟨moves.rebuilt, fun id b found => ?_, ?_⟩
  · rw [moves.counts] at found
    obtain ⟨c, before, written⟩ := Option.map_eq_some_iff.mp found
    have positive := held.floor id c before
    rw [← written]
    dsimp only
    split
    · rename_i atSource
      rw [atSource, moves.hot.registered] at before
      rw [← Option.some.inj before]
      omega
    · split <;> omega
  · have later : (GoMap.modify m.backends source.id (Backend.addVnodes (-1))).lookup sink.id = some sink := by
      rw [GoMap.lookupModify, if_neg moves.apart.symm, moves.cool.registered]
    rw [← held.total, totalVnodes, totalVnodes, moved, rebuildBackends, GoMap.sumModify _ later,
      GoMap.sumModify _ moves.hot.registered]
    simp only [Backend.addVnodes]
    omega

theorem adjustConserves (rt : Runtime) {total : Int} {m : Manager F} (held : Conserved total m) :
    Conserved total (m.adjust rt) := by
  rcases adjustCases rt held.sound with ⟨source, sink, hot, cool, beyond, result⟩ | ⟨_, result⟩
  · rw [result]
    exact movesConserve held hot cool beyond.1 beyond.2.2
  · rw [result]
    exact held

omit [GoFloat F] in
theorem quietConserves {total : Int} {m next : Manager F} (held : Conserved total m) (after : Sound next)
    (f : UInt32 → Backend → Backend) (count : ∀ k b, (f k b).vnodeCount = b.vnodeCount)
    (written : next.backends = GoMap.mapValues m.backends f) : Conserved total next := by
  refine ⟨after, fun id c found => ?_, ?_⟩
  · rw [written, GoMap.lookupMapValues] at found
    obtain ⟨b, before, same⟩ := Option.map_eq_some_iff.mp found
    rw [← same, count]
    exact held.floor id b before
  · rw [written, totalVnodes, GoMap.mapMapValues _ _ _ count]
    exact held.total

omit [GoFloat F] in
theorem modifyConserves {total : Int} {m next : Manager F} (held : Conserved total m) (after : Sound next)
    (id : UInt32) (f : Backend → Backend) (count : ∀ b, (f b).vnodeCount = b.vnodeCount)
    (written : next.backends = GoMap.modify m.backends id f) : Conserved total next :=
  quietConserves held after _ (fun _ b => by split; exact count b; rfl) written

omit [GoFloat F] in
theorem setFieldConserves (rt : Runtime) {total : Int} {m : Manager F} (held : Conserved total m) (id : UInt32)
    (write : Backend → Backend) (sameId : ∀ b, (write b).id = b.id)
    (count : ∀ b, (write b).vnodeCount = b.vnodeCount) : Conserved total (m.setField rt id write) := by
  have after := setFieldSound rt held.sound id write sameId
  unfold Manager.setField at after ⊢
  split
  · rename_i known
    rw [if_pos known] at after
    exact modifyConserves held after id write count rfl
  · exact held

/-- The operations that write no count of their own. -/
def Quiet : Op F → Prop
  | .setHealth _ _ | .setDraining _ _ | .setDrainingAll _ | .releaseConn _ | .route _ | .beginSlowStart _
  | .cancelSlowStart _ => True
  | _ => False

theorem stepConserves {total : Int} (m : Manager F) (op : Runtime × Op F) (next : Manager F)
    (held : Conserved total m) (quiet : Quiet op.2) (taken : Step m op next) : Conserved total next := by
  obtain ⟨rt, op⟩ := op
  have after := applySound rt held.sound taken
  cases op with
  | addBackend b => cases quiet
  | removeBackend id => cases quiet
  | setHealth id healthy =>
    cases taken
    exact setFieldConserves rt held id _ (fun _ => rfl) fun _ => rfl
  | setDraining id draining =>
    cases taken
    exact setFieldConserves rt held id _ (fun _ => rfl) fun _ => rfl
  | setDrainingAll draining =>
    cases taken
    exact quietConserves held after (fun _ b => { b with draining := draining }) (fun _ _ => rfl) rfl
  | setVnodeCount id count => cases quiet
  | releaseConn id =>
    cases taken
    exact modifyConserves held after id Backend.release (fun b => by rw [releaseWrites]) rfl
  | route key =>
    simp only [Step, Manager.apply, bind, Except.bind] at taken
    split at taken <;> try contradiction
    rename_i routed
    cases taken
    have counts (id : UInt32) := modifyConserves held
      (quietWriteSound held.sound id Backend.countRequest (fun _ => rfl) (fun _ => rfl) (m.reqCount + 1)) id
      Backend.countRequest (fun _ => rfl) rfl
    exact routeKeeps (P := Conserved total) rt held counts (fun _ => adjustConserves rt) routed
  | proactiveAdjust loadWindow => cases quiet
  | beginSlowStart id =>
    cases taken
    refine ⟨after, ?_, ?_⟩ <;> unfold Manager.beginSlowStart <;> split
    · exact held.floor
    · exact held.floor
    · exact held.total
    · exact held.total
  | cancelSlowStart id =>
    cases taken
    exact ⟨after, held.floor, held.total⟩
  | slowStartTick errorRate => cases quiet

/-- Along any run of calls of Route, and of whatever else writes no count, each adjustment does what it
should exactly when the verdict is the same, and the vnodes stay as many as they were. -/
theorem adjustMoves {m : Manager F} (sound : Sound m) (floor : Floor m.backends)
    {ops : List (Runtime × Op F)} {next : Manager F}
    (run : Run (Guarded (fun _ op => Quiet op.2) Step) m ops next) :
    (∀ rt, Adjusts rt next ↔ SameVerdict rt next) ∧
    totalVnodes next.backends = totalVnodes m.backends ∧ Floor next.backends ∧ Sound next := by
  have held := guardedInvariant stepConserves run ⟨sound, floor, rfl⟩
  exact ⟨fun rt => adjustExact rt held.sound, held.total, held.floor, held.sound⟩

def busyAndIdle : Manager ℚ :=
  ((newManager (load { vnodesPerServer := some 2 })).addBackend .plain
    { id := 1, health := true, activeReqs := 5 }).addBackend .plain { id := 2, health := true }

theorem busyMoves : ∃ next, Run (Guarded (fun _ op => Quiet op.2) Step) busyAndIdle [(.plain, .releaseConn 1)] next ∧
    (∃ source sink, source.id = 1 ∧ sink.id = 2 ∧ Moves next (next.adjust .plain) source sink) ∧
    totalVnodes next.backends = 4 ∧ Floor next.backends := by
  have reached : Run Step (newManager (load { vnodesPerServer := some 2 }))
      [(.plain, .addBackend { id := 1, health := true, activeReqs := 5 }),
        (.plain, .addBackend { id := 2, health := true })] busyAndIdle := .cons rfl (.cons rfl (.nil _))
  have floor : Floor busyAndIdle.backends := by
    have each : ∀ b ∈ GoMap.values busyAndIdle.backends, 1 ≤ b.vnodeCount := by decide +kernel
    exact fun id b found => each b (GoMap.memValues.mpr ⟨id, found⟩)
  have run : Run (Guarded (fun _ op => Quiet op.2) Step) busyAndIdle [(.plain, .releaseConn 1)]
      (busyAndIdle.releaseConn 1) := .cons ⟨trivial, rfl⟩ (.nil _)
  obtain ⟨verdicts, total, kept, _⟩ := adjustMoves (runSound reached) floor run
  have adjusts := (verdicts .plain).mpr (totalFits .plain (by decide +kernel))
  have four : totalVnodes busyAndIdle.backends = 4 := by decide +kernel
  refine ⟨_, run, ⟨{ id := 1, health := true, activeReqs := 4, vnodeCount := 2 },
    { id := 2, health := true, vnodeCount := 2 }, rfl, rfl, (adjusts.exactly_ _ _).mpr ⟨?_, ?_, ?_, ?_, ?_⟩⟩,
    total.trans four, kept⟩
  · decide +kernel
  · decide +kernel
  · decide
  · decide +kernel
  · decide

def fullAndFull : Manager ℚ :=
  (((newManager (load { vnodesPerServer := some 2 })).addBackend .plain
    { id := 1, health := true, activeReqs := 2 ^ 62 }).addBackend .plain
    { id := 2, health := true, activeReqs := 2 ^ 62 - 1 }).addBackend .plain
    { id := 3, health := true, activeReqs := 2 ^ 62 - 1 }

/-- Three loads that add up to a negative int64: a vnode moves although the largest is not above 1.3
times the mean. -/
theorem negativeMeanMoves : Run Step (newManager (load { vnodesPerServer := some 2 }))
      [(.plain, .addBackend { id := 1, health := true, activeReqs := 2 ^ 62 }),
        (.plain, .addBackend { id := 2, health := true, activeReqs := 2 ^ 62 - 1 }),
        (.plain, .addBackend { id := 3, health := true, activeReqs := 2 ^ 62 - 1 })] fullAndFull ∧
    (∀ b ∈ GoMap.values fullAndFull.backends, 1 ≤ b.vnodeCount) ∧ ¬ Adjusts .plain fullAndFull := by
  have run : Run Step (newManager (load { vnodesPerServer := some 2 }))
      [(.plain, .addBackend { id := 1, health := true, activeReqs := 2 ^ 62 }),
        (.plain, .addBackend { id := 2, health := true, activeReqs := 2 ^ 62 - 1 }),
        (.plain, .addBackend { id := 3, health := true, activeReqs := 2 ^ 62 - 1 })] fullAndFull :=
    .cons rfl (.cons rfl (.cons rfl (.nil _)))
  refine ⟨run, by decide +kernel, fun adjusts => ?_⟩
  have moves := ((adjustTested .plain (runSound run)).2 { id := 1, health := true, activeReqs := 2 ^ 62, vnodeCount := 2 }
    { id := 3, health := true, activeReqs := 2 ^ 62 - 1, vnodeCount := 2 }).mpr
    ⟨by decide +kernel, by decide +kernel, by decide, by decide +kernel, by decide⟩
  obtain ⟨_, _, overloaded⟩ := (adjusts.exactly_ _ _).mp moves
  exact absurd overloaded.2.1 (by decide +kernel)

end OmegaLb.AdjustMoves
