import OmegaLb.BoundedRing
import OmegaLb.ProactiveController
import OmegaLb.ProxyState
import OmegaLb.PrunedWindow
import Mathlib.Data.List.Rotate
import Mathlib.Data.Finset.Order

/-! MetricsStore of the Python proxy over exact rationals: the sample windows, the histories and the
tick that fills them. A call reads the clock before it takes the lock, so the times of the samples come
in any order; the ticks come from one thread. -/
namespace OmegaLb.MetricsWindows
open BoundedRing (lastOf)
open OmegaProxy (TokenBucket)
open PrunedWindow (since Keeps keepsAll keepsLater keepsPush keepsPrune sinceMap)

def historyLen : Nat := 120

/-- What a window has of one request, at the time that record_request_end has read. -/
structure Windows where
  lat : List (ℚ × ℚ)
  err : List (ℚ × ℚ)
  req : List ℚ

structure MetricsStore where
  n : Nat
  windows : Nat → Windows
  counters : OmegaProxy.MetricsStore
  latencyHist : Nat → List ℚ
  loadHist : Nat → List ℚ
  errorHist : Nat → List ℚ
  rpsHist : List ℚ
  vnodeCounts : List Nat
  cbfActive : List Bool
  rateLimits : Nat → ℚ
  kanWeights : List ℚ
  proactiveActive : Bool
  tick : Nat

def MetricsStore.init (n : Nat) : MetricsStore where
  n := n
  windows := fun _ => ⟨[], [], []⟩
  counters := ⟨fun _ => 0, fun _ => 0, fun _ => 0, fun _ => 0, fun _ => true⟩
  latencyHist := fun _ => List.replicate historyLen 0
  loadHist := fun _ => List.replicate historyLen 0
  errorHist := fun _ => List.replicate historyLen 0
  rpsHist := List.replicate historyLen 0
  vnodeCounts := List.replicate n 150
  cbfActive := List.replicate n false
  rateLimits := fun _ => 1000
  kanWeights := List.replicate n (1 / n)
  proactiveActive := false
  tick := 0

structure Sample where
  time : ℚ
  latencyMs : ℚ
  isError : Bool
  respBytes : Nat

def Sample.failed (s : Sample) : ℚ := if s.isError then 1 else 0

def Windows.record (w : Windows) (s : Sample) : Windows :=
  ⟨w.lat ++ [(s.time, s.latencyMs)], w.err ++ [(s.time, s.failed)], w.req ++ [s.time]⟩

def MetricsStore.recordRequestStart (m : MetricsStore) (backendId : Nat) : MetricsStore :=
  { m with counters := m.counters.recordRequestStart backendId }

def MetricsStore.recordRequestEnd (m : MetricsStore) (backendId : Nat) (s : Sample) : MetricsStore :=
  { m with
    counters := m.counters.recordRequestEnd backendId s.isError s.respBytes
    windows := Function.update m.windows backendId ((m.windows backendId).record s) }

def MetricsStore.setLimit (m : MetricsStore) (backendId : Nat) (rate : ℚ) : MetricsStore :=
  { m with rateLimits := Function.update m.rateLimits backendId rate }

/-! ### The tick -/

def prune (window : List (ℚ × ℚ)) (cutoff : ℚ) : List (ℚ × ℚ) := window.filter fun e => cutoff < e.1

def Windows.pruned (w : Windows) (now : ℚ) : Windows :=
  ⟨prune w.lat (now - 10), prune w.err (now - 10), w.req.filter fun time => now - 2 < time⟩

structure Column where
  lat : ℚ
  load : ℚ
  err : ℚ
  rps : ℚ

def mean (xs : List ℚ) : ℚ := if xs = [] then 0 else xs.sum / xs.length

def utilisation (active : Nat) (rps rate : ℚ) : ℚ := min 1 ((active + rps / 50) / (rate / 50))

def Windows.column (w : Windows) (now : ℚ) (active : Nat) (rate : ℚ) : Column :=
  let recentLats := (prune w.lat (now - 2)).map Prod.snd
  let recentErrs := (prune w.err (now - 2)).map Prod.snd
  let rps : ℚ := w.req.length / 2
  ⟨mean recentLats, utilisation active rps rate, mean recentErrs, rps⟩

/-- np.roll by one to the left, and the last entry written. -/
def roll (row : List ℚ) (x : ℚ) : List ℚ := (row.rotate 1).set (historyLen - 1) x

def MetricsStore.observed (m : MetricsStore) : Proactive.Observed :=
  ⟨historyLen, fun i j => (m.loadHist i).getD j 0, fun i => (m.loadHist i).getD (historyLen - 1) 0, m.counters.health⟩

def MetricsStore.aggregateTick (m : MetricsStore) (now : ℚ) : MetricsStore :=
  let windows := fun i => (m.windows i).pruned now
  let column := fun i => (windows i).column now (m.counters.active i) (m.rateLimits i)
  let m := { m with
    windows := windows
    latencyHist := fun i => roll (m.latencyHist i) (column i).lat
    loadHist := fun i => roll (m.loadHist i) (column i).load
    errorHist := fun i => roll (m.errorHist i) (column i).err
    rpsHist := roll m.rpsHist ((List.range m.n).map fun i => (column i).rps).sum }
  { m with
    proactiveActive := if m.tick > 10 then decide (m.observed.slope m.n * 30 > 3 / 4) else m.proactiveActive
    tick := m.tick + 1 }

/-! ### Runs -/

inductive Event where
  | start (backendId : Nat)
  | finish (backendId : Nat) (sample : Sample)
  | limit (backendId : Nat) (rate : ℚ)
  | tick (now : ℚ)

def MetricsStore.exec (m : MetricsStore) : Event → MetricsStore
  | .start i => m.recordRequestStart i
  | .finish i sample => m.recordRequestEnd i sample
  | .limit i rate => m.setLimit i rate
  | .tick now => m.aggregateTick now

def MetricsStore.run (m : MetricsStore) (events : List Event) : MetricsStore := events.foldl MetricsStore.exec m

def Event.tickTime : Event → Option ℚ
  | .tick now => some now
  | _ => none

/-- The clock of the aggregation thread does not go back. -/
def Forward (events : List Event) : Prop := (events.filterMap Event.tickTime).Pairwise (· ≤ ·)

/-! ### A store that forgets nothing -/

structure Archive where
  counters : OmegaProxy.MetricsStore
  rateLimits : Nat → ℚ
  log : Nat → List Sample
  columns : List (Nat → Column)

def Archive.init (n : Nat) : Archive :=
  ⟨(MetricsStore.init n).counters, (MetricsStore.init n).rateLimits, fun _ => [], []⟩

/-- What the whole log says of the last two seconds. -/
def measured (log : List Sample) (now : ℚ) (active : Nat) (rate : ℚ) : Column :=
  let recent := since Sample.time (now - 2) log
  ⟨mean (recent.map Sample.latencyMs), utilisation active (recent.length / 2) rate, mean (recent.map Sample.failed),
    recent.length / 2⟩

def Archive.exec (a : Archive) : Event → Archive
  | .start i => { a with counters := a.counters.recordRequestStart i }
  | .finish i sample => { a with
      counters := a.counters.recordRequestEnd i sample.isError sample.respBytes
      log := Function.update a.log i (a.log i ++ [sample]) }
  | .limit i rate => { a with rateLimits := Function.update a.rateLimits i rate }
  | .tick now => { a with
      columns := a.columns ++ [fun i => measured (a.log i) now (a.counters.active i) (a.rateLimits i)] }

def Archive.run (a : Archive) (events : List Event) : Archive := events.foldl Archive.exec a

/-- The last two minutes of what was measured, on zeros. -/
def shown (measure : (Nat → Column) → ℚ) (columns : List (Nat → Column)) : List ℚ :=
  lastOf historyLen (List.replicate historyLen 0 ++ columns.map measure)

structure Refines (m : MetricsStore) (a : Archive) : Prop where
  counters : m.counters = a.counters
  rateLimits : m.rateLimits = a.rateLimits
  ticks : m.tick = a.columns.length
  latency : ∀ i, m.latencyHist i = shown (fun c => (c i).lat) a.columns
  load : ∀ i, m.loadHist i = shown (fun c => (c i).load) a.columns
  errors : ∀ i, m.errorHist i = shown (fun c => (c i).err) a.columns
  rps : m.rpsHist = shown (fun c => ((List.range m.n).map fun i => (c i).rps).sum) a.columns
  proactive : m.proactiveActive =
    (decide (11 < a.columns.length) && decide (m.observed.slope m.n * 30 > 3 / 4))

/-! ### One row -/

theorem shownLength (measure : (Nat → Column) → ℚ) (columns : List (Nat → Column)) :
    (shown measure columns).length = historyLen := by
  rw [shown, BoundedRing.lastLength, List.length_append, List.length_replicate]
  omega

theorem shownNone (measure : (Nat → Column) → ℚ) : shown measure [] = List.replicate historyLen 0 := by
  rw [shown, List.map_nil, List.append_nil, lastOf, List.length_replicate, Nat.sub_self, List.drop_zero]

theorem rollFull {row : List ℚ} (full : row.length = historyLen) (x : ℚ) : roll row x = row.drop 1 ++ [x] := by
  have first : (row.take 1).length = 1 := by simp [full, historyLen]
  have rest : (row.drop 1).length = historyLen - 1 := by rw [List.length_drop, full]
  obtain ⟨head, alone⟩ := List.length_eq_one_iff.mp first
  rw [roll, List.rotate_eq_drop_append_take (by simp [full, historyLen]), alone,
    List.set_append_right _ _ rest.le, rest, Nat.sub_self]
  rfl

theorem rollShown {measure : (Nat → Column) → ℚ} {columns : List (Nat → Column)} {row : List ℚ}
    (before : row = shown measure columns) (column : Nat → Column) :
    roll row (measure column) = shown measure (columns ++ [column]) := by
  have full := shownLength measure columns
  have pushed := BoundedRing.lastPush historyLen (List.replicate historyLen 0 ++ columns.map measure) (measure column)
  change _ = if (shown measure columns ++ [measure column]).length > historyLen then
    (shown measure columns ++ [measure column]).drop 1 else _ at pushed
  rw [← before] at full pushed
  have long : (row ++ [measure column]).length > historyLen := by
    rw [List.length_append, full]
    exact Nat.lt_succ_self _
  rw [rollFull full, shown, List.map_append, List.map_singleton, ← List.append_assoc, pushed, if_pos long,
    List.drop_append_of_le_length (by rw [full]; decide)]

/-! ### One backend's windows -/

/-- The windows answer for the ticks from `now` on as the log does. -/
structure Covers (now : ℚ) (w : Windows) (log : List Sample) : Prop where
  lat : Keeps Prod.fst (now - 10) w.lat (log.map fun s => (s.time, s.latencyMs))
  err : Keeps Prod.fst (now - 10) w.err (log.map fun s => (s.time, s.failed))
  req : Keeps id (now - 2) w.req (log.map Sample.time)

theorem coversRecord {now : ℚ} {w : Windows} {log : List Sample} (covers : Covers now w log) (s : Sample) :
    Covers now (w.record s) (log ++ [s]) where
  lat := by
    rw [List.map_append]
    exact keepsPush covers.lat _
  err := by
    rw [List.map_append]
    exact keepsPush covers.err _
  req := by
    rw [List.map_append]
    exact keepsPush covers.req _

theorem coversPruned {now later : ℚ} {w : Windows} {log : List Sample} (covers : Covers now w log)
    (after : now ≤ later) : Covers later (w.pruned now) log where
  lat := keepsLater (keepsPrune covers.lat le_rfl).2 (by linarith)
  err := keepsLater (keepsPrune covers.err le_rfl).2 (by linarith)
  req := keepsLater (keepsPrune covers.req le_rfl).2 (by linarith)

theorem columnMeasured {now : ℚ} {w : Windows} {log : List Sample} (covers : Covers now w log) (active : Nat)
    (rate : ℚ) : (w.pruned now).column now active rate = measured log now active rate := by
  have below : now - 10 ≤ now - 2 := by linarith
  have lats : prune (w.pruned now).lat (now - 2) =
      (since Sample.time (now - 2) log).map fun s => (s.time, s.latencyMs) :=
    ((keepsPrune covers.lat le_rfl).2 _ below).trans (sinceMap _ _ _)
  have errs : prune (w.pruned now).err (now - 2) =
      (since Sample.time (now - 2) log).map fun s => (s.time, s.failed) :=
    ((keepsPrune covers.err le_rfl).2 _ below).trans (sinceMap _ _ _)
  have reqs : (w.pruned now).req = (since Sample.time (now - 2) log).map Sample.time :=
    ((keepsPrune covers.req le_rfl).1).trans (sinceMap _ _ _)
  unfold Windows.column measured
  rw [lats, errs, reqs]
  simp only [List.map_map, List.length_map]
  rfl

/-! ### Runs -/

structure Tracks (now : ℚ) (m : MetricsStore) (a : Archive) : Prop where
  refines : Refines m a
  covers : ∀ i, Covers now (m.windows i) (a.log i)

theorem coversLater {now later : ℚ} {w : Windows} {log : List Sample} (covers : Covers now w log)
    (after : now ≤ later) : Covers later w log where
  lat := keepsLater covers.lat (by linarith)
  err := keepsLater covers.err (by linarith)
  req := keepsLater covers.req (by linarith)

theorem initTracks (n : Nat) (now : ℚ) : Tracks now (.init n) (.init n) where
  refines := ⟨rfl, rfl, rfl, fun _ => (shownNone _).symm, fun _ => (shownNone _).symm, fun _ => (shownNone _).symm,
    (shownNone _).symm, rfl⟩
  covers _ := ⟨keepsAll _, keepsAll _, keepsAll _⟩

theorem tickTracks {now later : ℚ} {m : MetricsStore} {a : Archive} (tracks : Tracks now m a) (after : now ≤ later) :
    Tracks later (m.aggregateTick now) (a.exec (.tick now)) where
  refines := by
    obtain ⟨refines, covers⟩ := tracks
    have columns : ∀ i, ((m.windows i).pruned now).column now (m.counters.active i) (m.rateLimits i) =
        measured (a.log i) now (a.counters.active i) (a.rateLimits i) := by
      intro i
      rw [columnMeasured (covers i), refines.counters, refines.rateLimits]
    have one (measure : (Nat → Column) → ℚ) {row : List ℚ} (before : row = shown measure a.columns) :
        roll row (measure fun i => ((m.windows i).pruned now).column now (m.counters.active i) (m.rateLimits i)) =
          shown measure (a.exec (.tick now)).columns := by
      rw [funext columns]
      exact rollShown before _
    refine ⟨refines.counters, refines.rateLimits, ?_, fun i => one _ (refines.latency i),
      fun i => one _ (refines.load i), fun i => one _ (refines.errors i), one _ refines.rps, ?_⟩
    · rw [Archive.exec, List.length_append, ← refines.ticks]
      rfl
    · have length : (a.exec (.tick now)).columns.length = m.tick + 1 := by
        rw [Archive.exec, List.length_append, ← refines.ticks]
        rfl
      rw [length]
      change (if m.tick > 10 then _ else _) = _
      split
      · rename_i late
        rw [decide_eq_true (by omega : 11 < m.tick + 1), Bool.true_and]
        rfl
      · rename_i early
        rw [refines.proactive, ← refines.ticks]
        simp [show ¬ 11 < m.tick by omega, show ¬ 11 < m.tick + 1 by omega]
  covers i := coversPruned (tracks.covers i) after

theorem execTracks {now later : ℚ} {m : MetricsStore} {a : Archive} (tracks : Tracks now m a) {e : Event}
    (at_ : ∀ t, e.tickTime = some t → t = now) (after : now ≤ later) : Tracks later (m.exec e) (a.exec e) := by
  obtain ⟨refines, covers⟩ := tracks
  cases e with
  | start i =>
    refine ⟨⟨?_, refines.rateLimits, refines.ticks, refines.latency, refines.load, refines.errors, refines.rps,
      refines.proactive⟩, fun i => coversLater (covers i) after⟩
    exact congrArg (·.recordRequestStart i) refines.counters
  | finish i sample =>
    refine ⟨⟨?_, refines.rateLimits, refines.ticks, refines.latency, refines.load, refines.errors, refines.rps,
      refines.proactive⟩, fun j => coversLater ?_ after⟩
    · exact congrArg (·.recordRequestEnd i sample.isError sample.respBytes) refines.counters
    · by_cases own : j = i
      · subst own
        simpa [MetricsStore.exec, MetricsStore.recordRequestEnd, Archive.exec] using coversRecord (covers j) sample
      · simpa [MetricsStore.exec, MetricsStore.recordRequestEnd, Archive.exec, own] using covers j
  | limit i rate =>
    refine ⟨⟨refines.counters, ?_, refines.ticks, refines.latency, refines.load, refines.errors, refines.rps,
      refines.proactive⟩, fun j => coversLater (covers j) after⟩
    exact congrArg (Function.update · i rate) refines.rateLimits
  | tick t =>
    obtain rfl := at_ t rfl
    exact tickTracks ⟨refines, covers⟩ after

/-- What the dashboard and the control loop read after any run of requests and ticks is the last two
minutes of what the whole log says. -/
theorem windowsExact (n : Nat) {events : List Event} (forward : Forward events) :
    Refines ((MetricsStore.init n).run events) ((Archive.init n).run events) := by
  have tracks : ∀ now, (∀ t ∈ events.filterMap Event.tickTime, t ≤ now) →
      Tracks now ((MetricsStore.init n).run events) ((Archive.init n).run events) := by
    induction events using List.reverseRecOn with
    | nil => exact fun now _ => initTracks n now
    | append_singleton events e ih =>
      intro now bound
      unfold Forward at forward
      rw [List.filterMap_append, List.pairwise_append] at forward
      obtain ⟨earlier, _, across⟩ := forward
      rw [List.filterMap_append] at bound
      have next : ∃ t ≤ now, (∀ u, e.tickTime = some u → u = t) ∧
          ∀ u ∈ events.filterMap Event.tickTime, u ≤ t := by
        cases own : e.tickTime with
        | none => exact ⟨now, le_rfl, nofun, fun u inside => bound u (List.mem_append_left _ inside)⟩
        | some t =>
          have last : t ∈ [e].filterMap Event.tickTime := by simp [own]
          exact ⟨t, bound t (List.mem_append_right _ last), fun u same => (Option.some.inj same).symm,
            fun u inside => across u inside t last⟩
      obtain ⟨t, after, at_, below⟩ := next
      have tracks := execTracks (ih earlier t below) at_ after
      unfold MetricsStore.run Archive.run
      rw [List.foldl_append, List.foldl_append]
      exact tracks
  obtain ⟨now, bound⟩ := Finset.exists_le (events.filterMap Event.tickTime).toFinset
  exact (tracks now fun t inside => bound t (List.mem_toFinset.mpr inside)).refines

/-- The request that has ended before the first tick is recorded after it. -/
def overtaken : List Event :=
  [.start 0, .start 1, .tick 5, .finish 0 ⟨4, 30, true, 10⟩, .limit 1 500, .tick (11 / 2), .finish 1 ⟨6, 20, false, 0⟩]

theorem windowsExactOvertaken : Refines ((MetricsStore.init 2).run overtaken) ((Archive.init 2).run overtaken) :=
  windowsExact 2 (by
    have times : overtaken.filterMap Event.tickTime = [5, 11 / 2] := rfl
    rw [Forward, times]
    norm_num)

end OmegaLb.MetricsWindows
