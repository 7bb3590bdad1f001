import OmegaLb.RingInvariant

/-! The health checker of checker.go: the counter sections of markPass and markFail under
the endpoint's lock, and the SetHealth call each makes after releasing it. Checks of one
endpoint overlap, so their two halves interleave freely; `waiting` holds the flags about to
be set, in the order of the counter sections. -/
namespace OmegaLb.HealthChecker
open RingManager RingInvariant
open StepRun (Run Guarded)
open Config (RingConfig load)

structure HealthConfig where
  failThreshold : Int
  minSuccessesBeforeRestore : Int := 0

structure BackendEndpoint where
  id : UInt32
  failCount : Int := 0
  consecutiveSuccesses : Int := 0
  deriving DecidableEq, Repr

/-! ### The two halves of a check -/

structure Passed where
  ep : BackendEndpoint
  wasDown : Bool
  successes : Int

def markPassCounters (cfg : HealthConfig) (ep : BackendEndpoint) : Passed :=
  let successes := ep.consecutiveSuccesses + 1
  { ep := { ep with failCount := 0, consecutiveSuccesses := successes }
    wasDown := decide (ep.failCount ≥ cfg.failThreshold)
    successes := successes }

def markFailCounters (cfg : HealthConfig) (ep : BackendEndpoint) : BackendEndpoint × Bool :=
  let failCount := ep.failCount + 1
  ({ ep with failCount := failCount, consecutiveSuccesses := 0 },
    decide (failCount ≥ cfg.failThreshold))

def warmedUp (cfg : HealthConfig) (successes : Int) : Bool :=
  let min := if cfg.minSuccessesBeforeRestore ≤ 0 then 60 else cfg.minSuccessesBeforeRestore
  decide (successes = min)

variable {F : Type}

def markPass (rt : Runtime) (cfg : HealthConfig) (onRecovered : Option (UInt32 → Manager F → Manager F))
    (ep : BackendEndpoint) (ring : Manager F) : BackendEndpoint × Manager F :=
  let passed := markPassCounters cfg ep
  let ring := if passed.wasDown then ring.setHealth rt ep.id true else ring
  let ring := if warmedUp cfg passed.successes then
    match onRecovered with
    | some callback => callback ep.id ring
    | none => ring
  else ring
  (passed.ep, ring)

def markFail (rt : Runtime) (cfg : HealthConfig) (ep : BackendEndpoint) (ring : Manager F) :
    BackendEndpoint × Manager F :=
  let (ep, failed) := markFailCounters cfg ep
  (ep, if failed then ring.setHealth rt ep.id false else ring)

/-! ### Overlapping checks of one endpoint -/

structure State (F : Type) where
  ep : BackendEndpoint
  ring : Manager F
  waiting : List Bool

inductive Event where
  | pass
  | fail
  | act (i : Nat) (rt : Runtime)

def State.counted (s : State F) (ep : BackendEndpoint) (acts flag : Bool) : State F :=
  { s with ep := ep, waiting := if acts then s.waiting ++ [flag] else s.waiting }

def step (cfg : HealthConfig) (s : State F) : Event → Option (State F)
  | .pass =>
    let passed := markPassCounters cfg s.ep
    some (s.counted passed.ep passed.wasDown true)
  | .fail =>
    let (ep, failed) := markFailCounters cfg s.ep
    some (s.counted ep failed false)
  | .act i rt => s.waiting[i]?.map fun flag =>
    { s with ring := s.ring.setHealth rt s.ep.id flag, waiting := s.waiting.eraseIdx i }

def Step (cfg : HealthConfig) (s : State F) (e : Event) (t : State F) : Prop :=
  step cfg s e = some t

/-! A check that nothing interrupts is its two halves, one after the other. -/

theorem markFailRuns (cfg : HealthConfig) (rt : Runtime) {s : State F} (quiet : s.waiting = []) :
    ∃ es, Run (Step cfg) s es
      ⟨(markFail rt cfg s.ep s.ring).1, (markFail rt cfg s.ep s.ring).2, []⟩ := by
  cases acts : (markFailCounters cfg s.ep).2 with
  | false =>
    refine ⟨[.fail], .cons ?_ (.nil _)⟩
    simp [Step, step, State.counted, acts, quiet, markFail]
  | true =>
    have same : (markFailCounters cfg s.ep).1.id = s.ep.id := rfl
    have counts : Step cfg s .fail (s.counted (markFailCounters cfg s.ep).1 true false) := by
      simp [Step, step, acts]
    refine ⟨[.fail, .act 0 rt], .cons counts (.cons ?_ (.nil _))⟩
    simp [Step, step, State.counted, acts, quiet, markFail, same]

theorem markPassRuns (cfg : HealthConfig) (rt : Runtime) {s : State F} (quiet : s.waiting = []) :
    ∃ es, Run (Step cfg) s es
      ⟨(markPass rt cfg none s.ep s.ring).1, (markPass rt cfg none s.ep s.ring).2, []⟩ := by
  cases acts : (markPassCounters cfg s.ep).wasDown with
  | false =>
    refine ⟨[.pass], .cons ?_ (.nil _)⟩
    simp [Step, step, State.counted, acts, quiet, markPass]
  | true =>
    have same : (markPassCounters cfg s.ep).ep.id = s.ep.id := rfl
    have counts : Step cfg s .pass (s.counted (markPassCounters cfg s.ep).ep true true) := by
      simp [Step, step, acts]
    refine ⟨[.pass, .act 0 rt], .cons counts (.cons ?_ (.nil _))⟩
    simp [Step, step, State.counted, acts, quiet, markPass, same]

structure Start (s : State F) : Prop where
  healthy : ∃ b, s.ring.backendInfo s.ep.id = some b ∧ b.health = true
  fresh : s.ep.failCount = 0
  quiet : s.waiting = []

def Agrees (cfg : HealthConfig) (s : State F) : Prop :=
  ∃ b, s.ring.backendInfo s.ep.id = some b ∧ b.health = decide (s.ep.failCount < cfg.failThreshold)

/-- No check writes its flag while one counted before it still waits to write the
opposite flag. -/
def InOrder (s : State F) : Event → Prop
  | .act i _ => ∀ j earlier, j < i → s.waiting[j]? = some earlier → s.waiting[i]? = some earlier
  | _ => True

/-! ### SetHealth -/

theorem setHealthInfo (rt : Runtime) {m : Manager F} {id : UInt32} {b : Backend}
    (registered : m.backendInfo id = some b) (healthy : Bool) :
    (m.setHealth rt id healthy).backendInfo id = some { b with health := healthy } := by
  have found : m.backends.lookup id = some b := registered
  have member : id ∈ m.backends := AList.lookup_isSome.mp (by simp [found])
  simp [Manager.setHealth, Manager.setField, Manager.backendInfo, member, GoMap.lookupModify, found]

/-! ### What the waiting checks know -/

structure Tracked (cfg : HealthConfig) (s : State F) : Prop where
  registered : ∃ b, s.ring.backendInfo s.ep.id = some b
  newest : ∀ flag, s.waiting.getLast? = some flag → flag = decide (s.ep.failCount < cfg.failThreshold)
  settled : s.waiting = [] → Agrees cfg s

theorem startTracked {cfg : HealthConfig} (threshold : 1 ≤ cfg.failThreshold) {s : State F}
    (start : Start s) : Tracked cfg s := by
  obtain ⟨b, info, healthy⟩ := start.healthy
  refine ⟨⟨b, info⟩, ?_, fun _ => ⟨b, info, ?_⟩⟩
  · simp [start.quiet]
  · have below : s.ep.failCount < cfg.failThreshold := by rw [start.fresh]; omega
    simp [healthy, below]

theorem countedTracked {cfg : HealthConfig} {s : State F} (tracked : Tracked cfg s)
    {ep : BackendEndpoint} (sameId : ep.id = s.ep.id) {acts flag : Bool}
    (speaks : acts = true → flag = decide (ep.failCount < cfg.failThreshold))
    (silent : acts = false → decide (ep.failCount < cfg.failThreshold) =
      decide (s.ep.failCount < cfg.failThreshold)) :
    Tracked cfg (s.counted ep acts flag) := by
  obtain ⟨⟨b, info⟩, newest, settled⟩ := tracked
  refine ⟨⟨b, by simpa [State.counted, sameId] using info⟩, ?_, ?_⟩
  · intro last found
    cases acts with
    | true =>
      simp only [State.counted, if_true, List.getLast?_concat, Option.some.injEq] at found
      rw [← found]
      exact speaks rfl
    | false =>
      have before := newest last found
      rw [before]
      exact (silent rfl).symm
  · intro none_
    cases acts with
    | true => simp [State.counted] at none_
    | false =>
      obtain ⟨c, infoC, health⟩ := settled none_
      refine ⟨c, by simpa [State.counted, sameId] using infoC, ?_⟩
      rw [health]
      exact (silent rfl).symm

theorem passTracked {cfg : HealthConfig} (threshold : 1 ≤ cfg.failThreshold) {s : State F}
    (tracked : Tracked cfg s) :
    Tracked cfg (s.counted (markPassCounters cfg s.ep).ep (markPassCounters cfg s.ep).wasDown true) := by
  have up : (0 : Int) < cfg.failThreshold := by omega
  apply countedTracked tracked
  · rfl
  · simp [markPassCounters, up]
  · intro wasUp
    have below : s.ep.failCount < cfg.failThreshold := by simpa [markPassCounters] using wasUp
    simp [markPassCounters, up, below]

theorem failTracked {cfg : HealthConfig} {s : State F} (tracked : Tracked cfg s) :
    Tracked cfg (s.counted (markFailCounters cfg s.ep).1 (markFailCounters cfg s.ep).2 false) := by
  apply countedTracked tracked
  · rfl
  · intro failed
    have reached : cfg.failThreshold ≤ s.ep.failCount + 1 := by simpa [markFailCounters] using failed
    simp [markFailCounters, reached]
  · intro survived
    have below : s.ep.failCount + 1 < cfg.failThreshold := by simpa [markFailCounters] using survived
    have before : s.ep.failCount < cfg.failThreshold := by omega
    simp [markFailCounters, below, before]

theorem newestErased {waiting : List Bool} {i : Nat} {flag last : Bool}
    (acting : waiting[i]? = some flag)
    (inOrder : ∀ j earlier, j < i → waiting[j]? = some earlier → waiting[i]? = some earlier)
    (left : (waiting.eraseIdx i).getLast? = some last) : waiting.getLast? = some last := by
  have bound : i < waiting.length := (List.getElem?_eq_some_iff.mp acting).1
  rw [List.getLast?_eq_getElem?, List.length_eraseIdx_of_lt bound] at left
  rw [List.getLast?_eq_getElem?]
  by_cases final : i = waiting.length - 1
  · -- the acting check is the newest: whoever is left behind it holds the same flag
    rw [List.getElem?_eraseIdx] at left
    split at left
    · have same := inOrder _ _ ‹_› left
      rwa [final] at same
    · rw [show waiting.length - 1 - 1 + 1 = waiting.length by omega] at left
      simp at left
  · rw [List.getElem?_eraseIdx, if_neg (by omega)] at left
    rwa [show waiting.length - 1 - 1 + 1 = waiting.length - 1 by omega] at left

theorem actTracked {cfg : HealthConfig} {s : State F} (tracked : Tracked cfg s) {i : Nat}
    {rt : Runtime} {flag : Bool} (acting : s.waiting[i]? = some flag)
    (inOrder : InOrder s (.act i rt)) :
    Tracked cfg { s with ring := s.ring.setHealth rt s.ep.id flag, waiting := s.waiting.eraseIdx i } := by
  obtain ⟨⟨b, info⟩, newest, _⟩ := tracked
  have written := setHealthInfo rt info flag
  refine ⟨⟨_, written⟩, ?_, ?_⟩
  · exact fun last left => newest last (newestErased acting inOrder left)
  · intro empty
    refine ⟨_, written, newest flag ?_⟩
    -- it was the only one waiting
    have bound : i < s.waiting.length := (List.getElem?_eq_some_iff.mp acting).1
    have single : s.waiting.length = 1 := by
      have erased := List.length_eraseIdx_of_lt bound
      have none_ : (s.waiting.eraseIdx i).length = 0 := congrArg List.length empty
      omega
    rw [List.getLast?_eq_getElem?, single]
    rwa [show i = 1 - 1 by omega] at acting

theorem stepTracked {cfg : HealthConfig} (threshold : 1 ≤ cfg.failThreshold) {s t : State F}
    {e : Event} (tracked : Tracked cfg s) (inOrder : InOrder s e) (taken : Step cfg s e t) :
    Tracked cfg t := by
  cases e with
  | pass =>
    cases Option.some.inj taken
    exact passTracked threshold tracked
  | fail =>
    cases Option.some.inj taken
    exact failTracked tracked
  | act i rt =>
    obtain ⟨flag, acting, result⟩ := Option.map_eq_some_iff.mp taken
    rw [← result]
    exact actTracked tracked acting inOrder

/-! ### Runs -/

theorem inOrderAgrees {cfg : HealthConfig} (threshold : 1 ≤ cfg.failThreshold) {s t : State F} {es}
    (start : Start s) (run : Run (Guarded InOrder (Step cfg)) s es t) (quiet : t.waiting = []) :
    Agrees cfg t := by
  have preserved : ∀ (s : State F) e t, Tracked cfg s → InOrder s e → Step cfg s e t → Tracked cfg t :=
    fun _ _ _ tracked inOrder taken => stepTracked threshold tracked inOrder taken
  exact (StepRun.guardedInvariant preserved run (startTracked threshold start)).settled quiet

/-! ### One endpoint of a new manager -/

variable [GoFloat F]

def watched (cfg : RingConfig F) : State F where
  ep := { id := 1 }
  ring := (newManager cfg).addBackend .plain { id := 1, health := true }
  waiting := []

theorem watchedInfo (cfg : RingConfig F) : (watched cfg).ring.backendInfo 1 =
    some { id := 1, health := true, vnodeCount := (newManager cfg).cfg.vnodesPerServer } :=
  addBackendLookup .plain (newManager cfg) { id := 1, health := true } (AList.notMem_empty _)

theorem watchedStart (cfg : RingConfig F) : Start (watched cfg) :=
  ⟨⟨_, watchedInfo cfg, rfl⟩, rfl, rfl⟩

/-- The second failure and the pass are counted before either sets its flag. -/
theorem inOrderAgreesOverlapped : ∃ t : State ℚ, t.ep.consecutiveSuccesses = 1 ∧
    Run (Guarded InOrder (Step { failThreshold := 2 })) (watched (load {}))
      [.fail, .fail, .pass, .act 0 .plain, .fail, .pass, .act 0 .plain] t ∧
      Agrees { failThreshold := 2 } t := by
  have inOrder : ∀ s : State ℚ, InOrder s (.act 0 .plain) := fun _ j _ below => by omega
  have run : Run (Guarded InOrder (Step { failThreshold := 2 })) (watched (load {}) : State ℚ)
      [.fail, .fail, .pass, .act 0 .plain, .fail, .pass, .act 0 .plain] _ :=
    .cons ⟨trivial, rfl⟩ (.cons ⟨trivial, rfl⟩ (.cons ⟨trivial, rfl⟩ (.cons ⟨inOrder _, rfl⟩
      (.cons ⟨trivial, rfl⟩ (.cons ⟨trivial, rfl⟩ (.cons ⟨inOrder _, rfl⟩ (.nil _)))))))
  exact ⟨_, rfl, run, inOrderAgrees (by decide) (watchedStart _) run rfl⟩

theorem overtakenFailureStaysDown : ∃ t : State ℚ, Start (watched (load {}) : State ℚ) ∧
    Run (Step { failThreshold := 1 }) (watched (load {}))
      [.fail, .pass, .act 1 .plain, .act 0 .plain] t ∧
    t.waiting = [] ∧ t.ep.failCount = 0 ∧ ¬ Agrees { failThreshold := 1 } t := by
  refine ⟨_, watchedStart _, .cons rfl (.cons rfl (.cons rfl (.cons rfl (.nil _)))), rfl, rfl, ?_⟩
  rintro ⟨b, info, health⟩
  have down := setHealthInfo .plain (setHealthInfo .plain (watchedInfo (load {} : RingConfig ℚ)) true) false
  cases Option.some.inj (down.symm.trans info)
  exact absurd health (by decide)

end OmegaLb.HealthChecker
