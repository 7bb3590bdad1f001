import OmegaLb.BoundedRing
import OmegaLb.Collector

/-! What the collector keeps of one backend after any sequence of samples of any backends, and what
Snapshot and LoadWindow give out of it. Range calls in any order: no key comes up twice. -/
namespace OmegaLb.Metrics
open BoundedRing (lastOf lastPush)

section Model
variable {F : Type}

/-- The pointers are shared. -/
def snapshot (c : Collector F) : GoMap UInt32 (BackendStats F) :=
  GoMap.writeAll (c.entries.map fun e => (e.1, e.2))

def loadWindow (c : Collector F) : GoMap UInt32 (List F) :=
  GoMap.writeAll (c.entries.map fun e => (e.1, e.2.loadHistory))

end Model

/-! ### What is promised -/

def ownSamples (samples : List Sample) (id : UInt32) : List Sample := samples.filter fun s => s.instanceID = id

def recorded (own : List Sample) : BackendStats ℚ := own.foldl BackendStats.record newBackendStats

/-- In milliseconds. -/
def Sample.latency (s : Sample) : ℚ := s.latencyNs.toNat / 10 ^ 6

def largest (own : List Sample) : ℚ := own.foldl (fun most s => max most s.latency) 0

/-- LatencyEWMA after each of the samples. -/
def averages (own : List Sample) : List ℚ :=
  (List.range own.length).map fun i => (recorded (own.take (i + 1))).latencyEWMA

structure Aggregates (own : List Sample) (stats : BackendStats ℚ) : Prop where
  count : stats.requestCount = own.length
  errorRate : 0 ≤ stats.errorRate1m ∧ stats.errorRate1m ≤ 1
  latency : 0 ≤ stats.latencyEWMA ∧ stats.latencyEWMA ≤ largest own
  history : stats.loadHistory = lastOf loadWindowSize (averages own)

/-! ### The samples of one backend -/

theorem ingestLookup (c : Collector ℚ) (s : Sample) (id : UInt32) : (ingest c s).lookup id =
    if s.instanceID = id then some (((c.lookup id).getD newBackendStats).record s) else c.lookup id := by
  rw [ingest]
  by_cases own : s.instanceID = id
  · subst own
    rw [if_pos rfl, AList.lookup_insert]
  · rw [if_neg own, AList.lookup_insert_ne (Ne.symm own)]

theorem ingestsLookup (samples : List Sample) (c : Collector ℚ) (id : UInt32) :
    (samples.foldl ingest c).lookup id = if ownSamples samples id = [] then c.lookup id
      else some ((ownSamples samples id).foldl BackendStats.record ((c.lookup id).getD newBackendStats)) := by
  induction samples generalizing c with
  | nil => rfl
  | cons s rest ih =>
    rw [List.foldl_cons, ih, ingestLookup]
    by_cases own : s.instanceID = id
    · have split : ownSamples (s :: rest) id = s :: ownSamples rest id := List.filter_cons_of_pos (by simpa using own)
      rw [split, if_pos own, if_neg (List.cons_ne_nil _ _), List.foldl_cons, Option.getD_some]
      split
      · rename_i none_
        rw [none_, List.foldl_nil]
      · rfl
    · have split : ownSamples (s :: rest) id = ownSamples rest id := List.filter_cons_of_neg (by simpa using own)
      rw [split, if_neg own]

/-! ### One more sample -/

theorem recordedSnoc (own : List Sample) (s : Sample) : recorded (own ++ [s]) = (recorded own).record s := by
  rw [recorded, List.foldl_append]
  rfl

theorem averagesSnoc (own : List Sample) (s : Sample) :
    averages (own ++ [s]) = averages own ++ [((recorded own).record s).latencyEWMA] := by
  rw [averages, List.length_append, List.length_singleton, List.range_succ, List.map_append, List.map_singleton,
    List.take_of_length_le (by simp), recordedSnoc]
  refine congrArg (· ++ _) (List.map_congr_left fun i inside => ?_)
  rw [List.take_append_of_le_length (List.mem_range.mp inside)]

theorem largestSnoc (own : List Sample) (s : Sample) : largest (own ++ [s]) = max (largest own) s.latency := by
  rw [largest, List.foldl_append]
  rfl

theorem recordAggregates {own : List Sample} (kept : Aggregates own (recorded own)) (s : Sample) :
    Aggregates (own ++ [s]) (recorded (own ++ [s])) := by
  rw [recordedSnoc]
  refine ⟨?_, ?_, ?_, ?_⟩
  · rw [List.length_append, ← kept.count]
    rfl
  · obtain ⟨low, high⟩ := kept.errorRate
    simp only [BackendStats.record, ratLit]
    cases s.error <;> constructor <;> simp <;> linarith
  · obtain ⟨low, high⟩ := kept.latency
    have moved : ((recorded own).record s).latencyEWMA = ((recorded own).latencyEWMA * 7 + s.latency) / 8 := by
      simp only [BackendStats.record, ratLit, ratOfInt, Sample.latency]
      norm_num
    have positive : 0 ≤ s.latency := by
      unfold Sample.latency
      positivity
    have first := le_max_left (largest own) s.latency
    have second := le_max_right (largest own) s.latency
    rw [moved, largestSnoc]
    constructor <;> linarith
  · rw [averagesSnoc, lastPush, ← kept.history]
    rfl

theorem recordedAggregates (own : List Sample) : Aggregates own (recorded own) := by
  induction own using List.reverseRecOn with
  | nil =>
    refine ⟨rfl, ?_, ?_, rfl⟩
    · simp [recorded, newBackendStats]
    · simp [recorded, newBackendStats, largest]
  | append_singleton own s ih => exact recordAggregates ih s

theorem aggregatesExact (samples : List Sample) (id : UInt32) :
    let c : Collector ℚ := samples.foldl ingest ∅
    let own := ownSamples samples id
    c.lookup id = (if own = [] then none else some (recorded own)) ∧
      (snapshot c).lookup id = c.lookup id ∧
      (loadWindow c).lookup id = (if own = [] then none else some (lastOf loadWindowSize (averages own))) ∧
      Aggregates own (recorded own) := by
  have kept := recordedAggregates (ownSamples samples id)
  have found := ingestsLookup samples ∅ id
  rw [AList.lookup_empty] at found
  refine ⟨found, ?_, ?_, kept⟩
  · exact (GoMap.lookupWriteAll _ (fun stats => stats) id).trans Option.map_id_apply
  · rw [loadWindow, GoMap.lookupWriteAll _ BackendStats.loadHistory, found]
    split
    · rfl
    · rw [Option.map_some, ← kept.history]
      rfl

end OmegaLb.Metrics
