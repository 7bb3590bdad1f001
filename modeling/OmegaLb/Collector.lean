import OmegaLb.GoMath

/-! The collector of collector.go: what it keeps of every backend and how one event of the
ring buffer changes it. The callback of the flight recorder is not modelled; a counter of
requests does not reach 2^64. -/
namespace OmegaLb.Metrics

structure Sample where
  instanceID : UInt32
  latencyNs : UInt64
  error : Bool

structure BackendStats (F : Type) where
  latencyEWMA : F
  errorRate1m : F
  requestCount : Nat
  loadHistory : List F
  deriving DecidableEq

abbrev Collector (F : Type) := GoMap UInt32 (BackendStats F)

def loadWindowSize : Nat := 120

section Model
variable {F : Type} [GoFloat F]

def newBackendStats : BackendStats F := ⟨GoFloat.lit 0, GoFloat.lit 0, 0, []⟩

def slide (history : List F) : List F :=
  if history.length > loadWindowSize then history.drop 1 else history

def BackendStats.record (stats : BackendStats F) (s : Sample) : BackendStats F :=
  let lat := GoFloat.ofInt s.latencyNs.toNat / GoFloat.lit 1e6
  let latencyEWMA := (stats.latencyEWMA * GoFloat.lit 7 + lat) / GoFloat.lit 8
  let errVal := if s.error then GoFloat.lit 1.0 else GoFloat.lit 0.0
  { latencyEWMA := latencyEWMA
    errorRate1m := (stats.errorRate1m * GoFloat.lit 59 + errVal) / GoFloat.lit 60
    requestCount := stats.requestCount + 1
    loadHistory := slide (stats.loadHistory ++ [latencyEWMA]) }

def ingest (c : Collector F) (s : Sample) : Collector F :=
  let stats := (c.lookup s.instanceID).getD newBackendStats
  c.insert s.instanceID (stats.record s)

end Model

/-! ### What the collector keeps, over the rationals -/

structure Recorded (stats : BackendStats ℚ) : Prop where
  latency : 0 ≤ stats.latencyEWMA
  history : ∀ x ∈ stats.loadHistory, 0 ≤ x

def AllRecorded (c : Collector ℚ) : Prop := ∀ id stats, c.lookup id = some stats → Recorded stats

theorem recordRecorded {stats : BackendStats ℚ} (kept : Recorded stats) (s : Sample) :
    Recorded (stats.record s) := by
  have latency : 0 ≤ (stats.record s).latencyEWMA := by
    have past := kept.latency
    simp only [BackendStats.record, ratLit, ratOfInt]
    positivity
  refine ⟨latency, fun x member => ?_⟩
  have inside : x ∈ stats.loadHistory ++ [(stats.record s).latencyEWMA] := by
    simp only [BackendStats.record, slide] at member
    split at member
    · exact List.mem_of_mem_drop member
    · exact member
  rcases List.mem_append.mp inside with old | new
  · exact kept.history x old
  · exact List.mem_singleton.mp new ▸ latency

theorem ingestRecorded {c : Collector ℚ} (kept : AllRecorded c) (s : Sample) :
    AllRecorded (ingest c s) := by
  intro id stats found
  by_cases same : id = s.instanceID
  · subst same
    rw [ingest, AList.lookup_insert] at found
    rw [← Option.some.inj found]
    apply recordRecorded
    cases before : c.lookup s.instanceID with
    | none => exact ⟨le_refl _, fun _ member => absurd member List.not_mem_nil⟩
    | some old => exact kept _ old before
  · rw [ingest, AList.lookup_insert_ne same] at found
    exact kept id stats found

theorem collectorRecorded (samples : List Sample) : AllRecorded (samples.foldl ingest ∅) := by
  suffices from_ : ∀ c, AllRecorded c → AllRecorded (samples.foldl ingest c) from
    from_ ∅ fun id stats found => by simp at found
  induction samples with
  | nil => exact fun _ kept => kept
  | cons s rest ih => exact fun c kept => ih _ (ingestRecorded kept s)

end OmegaLb.Metrics
