import OmegaLb.HealthChecker
import OmegaLb.SlowStartTable
import Mathlib.Data.List.Induction
import Mathlib.Data.List.TakeWhile

/-! When the recovery callback is called: sequences of probe outcomes of one endpoint that starts
healthy, with BeginSlowStart as the callback. Two counters decide, the failures before a success
and the successes since a failure, and the callback looks only at the second. -/
namespace OmegaLb.RecoveryCallback
open RingManager RingInvariant SlowStartTable HealthChecker
open Config (RingConfig load)

variable {F : Type}

structure Watched (F : Type) where
  ep : BackendEndpoint
  ring : Manager F

/-- The outcome of one check, and what the runtime chooses in it. -/
structure Outcome where
  passed : Bool
  rt : Runtime

def probe (cfg : HealthConfig) (s : Watched F) (o : Outcome) : Watched F :=
  let (ep, ring) := if o.passed then
    markPass o.rt cfg (some fun id m => m.beginSlowStart id) s.ep s.ring
  else markFail o.rt cfg s.ep s.ring
  ⟨ep, ring⟩

def probes (cfg : HealthConfig) (s : Watched F) (os : List Outcome) : Watched F :=
  os.foldl (probe cfg) s

def minSuccesses (cfg : HealthConfig) : Int :=
  if cfg.minSuccessesBeforeRestore ≤ 0 then 60 else cfg.minSuccessesBeforeRestore

def Up (s : Watched F) : Prop := ∃ b, s.ring.backendInfo s.ep.id = some b ∧ b.health = true

/-- This check calls onRecovered. -/
def Calls (cfg : HealthConfig) (s : Watched F) (o : Outcome) : Prop :=
  o.passed = true ∧ warmedUp cfg (markPassCounters cfg s.ep).successes = true

def WentUp (cfg : HealthConfig) (s : Watched F) (o : Outcome) : Prop :=
  ¬ Up s ∧ Up (probe cfg s o)

/-- The last check is the min-th of an unbroken series of successes that began with a
DOWN-to-UP transition. -/
def Recovered (cfg : HealthConfig) (s : Watched F) (os : List Outcome) : Prop :=
  ∃ before first later, os = before ++ first :: later ∧ WentUp cfg (probes cfg s before) first ∧
    (∀ o ∈ first :: later, o.passed = true) ∧ ((first :: later).length : Int) = minSuccesses cfg

structure RecoveryLaw (cfg : HealthConfig) (s : Watched F) (os : List Outcome) : Prop where
  calls : ∀ before o after, os = before ++ o :: after →
    (Calls cfg (probes cfg s before) o ↔ Recovered cfg s (before ++ [o]))
  spared : (∀ before after, os = before ++ after → Up (probes cfg s before)) →
    s.ep.id ∉ (probes cfg s os).ring.slowStart.restoring

/-- How many of the last outcomes are `passed`. -/
def streak (passed : Bool) (os : List Outcome) : Nat :=
  (os.reverse.takeWhile fun o => o.passed == passed).length

/-- Every series of successes that completes a warm-up has at least FailThreshold failures
right before it. -/
def WarmUpsEarned (cfg : HealthConfig) (os : List Outcome) : Prop :=
  ∀ before passes after, os = before ++ passes ++ after → (∀ o ∈ passes, o.passed = true) →
    (passes.length : Int) = minSuccesses cfg →
    (∀ o, before.getLast? = some o → o.passed = false) → cfg.failThreshold ≤ streak false before

structure Start (s : Watched F) : Prop where
  noFailure : s.ep.failCount = 0
  noSuccess : s.ep.consecutiveSuccesses = 0
  up : Up s
  calm : s.ep.id ∉ s.ring.slowStart.restoring

/-! ### Streaks -/

theorem streakSame {passed : Bool} {o : Outcome} (same : o.passed = passed) (os : List Outcome) :
    streak passed (os ++ [o]) = streak passed os + 1 := by
  simp [streak, same]

theorem streakOther {passed : Bool} {o : Outcome} (other : o.passed ≠ passed) (os : List Outcome) :
    streak passed (os ++ [o]) = 0 := by
  simp [streak, other]

theorem streakBlock (os : List Outcome) (n : Nat) : streak true os = n ↔
    ∃ before passes, os = before ++ passes ∧ (∀ o ∈ passes, o.passed = true) ∧ passes.length = n ∧
      ∀ o, before.getLast? = some o → o.passed = false := by
  constructor
  · intro length
    refine ⟨(os.reverse.dropWhile fun o => o.passed == true).reverse,
      (os.reverse.takeWhile fun o => o.passed == true).reverse, ?_, ?_, ?_, ?_⟩
    · rw [← List.reverse_append, List.takeWhile_append_dropWhile, List.reverse_reverse]
    · intro o inside
      simpa using List.mem_takeWhile_imp (List.mem_reverse.mp inside)
    · rw [List.length_reverse]
      exact length
    · intro o last
      rw [List.getLast?_reverse] at last
      have stopped := List.head?_dropWhile_not (fun o : Outcome => o.passed == true) os.reverse
      rw [last] at stopped
      simpa using stopped
  · rintro ⟨before, passes, same, passed, length, last⟩
    have kept : ∀ o ∈ passes.reverse, (o.passed == true) = true :=
      fun o inside => by simpa using passed o (List.mem_reverse.mp inside)
    have stopped : before.reverse.takeWhile (fun o => o.passed == true) = [] := by
      cases shape : before.reverse with
      | nil => rfl
      | cons o rest =>
        have final : before.getLast? = some o := by rw [← List.head?_reverse, shape]; rfl
        simp [last o final]
    rw [streak, same, List.reverse_append, List.takeWhile_append_of_pos kept, stopped, List.append_nil,
      List.length_reverse, length]

/-! ### The counters are the streaks, and the flag follows the failures -/

structure Tracks (cfg : HealthConfig) (id : UInt32) (os : List Outcome) (s : Watched F) : Prop where
  sameId : s.ep.id = id
  failures : s.ep.failCount = streak false os
  successes : s.ep.consecutiveSuccesses = streak true os
  health : ∃ b, s.ring.backendInfo id = some b ∧
    b.health = decide ((streak false os : Int) < cfg.failThreshold)

theorem passInfo (cfg : HealthConfig) (s : Watched F) {o : Outcome} (passed : o.passed = true) :
    ∃ ring : Manager F, (probe cfg s o).ep = (markPassCounters cfg s.ep).ep ∧
      ring = (if s.ep.failCount ≥ cfg.failThreshold then s.ring.setHealth o.rt s.ep.id true else s.ring) ∧
      (probe cfg s o).ring = if warmedUp cfg (s.ep.consecutiveSuccesses + 1) then
        ring.beginSlowStart s.ep.id else ring := by
  refine ⟨_, ?_, rfl, ?_⟩
  · simp [probe, passed, markPass]
  · simp [probe, passed, markPass, markPassCounters]

theorem failInfo (cfg : HealthConfig) (s : Watched F) {o : Outcome} (failed : o.passed = false) :
    (probe cfg s o).ep = (markFailCounters cfg s.ep).1 ∧
      (probe cfg s o).ring = if s.ep.failCount + 1 ≥ cfg.failThreshold then
        s.ring.setHealth o.rt s.ep.id false else s.ring := by
  constructor
  · simp [probe, failed, markFail]
  · simp [probe, failed, markFail, markFailCounters]

theorem passTracks {cfg : HealthConfig} (threshold : 1 ≤ cfg.failThreshold) {id : UInt32}
    {os : List Outcome} {s : Watched F} (tracks : Tracks cfg id os s) {o : Outcome} (passed : o.passed = true) :
    Tracks cfg id (os ++ [o]) (probe cfg s o) := by
  obtain ⟨rfl, failures, successes, b, found, health⟩ := tracks
  obtain ⟨ring, ep, marked, after⟩ := passInfo cfg s passed
  have noFailure : streak false (os ++ [o]) = 0 := streakOther (by simp [passed]) os
  have info : ∃ c, ring.backendInfo s.ep.id = some c ∧ c.health = true := by
    rw [marked]
    split
    · exact ⟨_, setHealthInfo o.rt found true, rfl⟩
    · exact ⟨b, found, by rw [health, decide_eq_true_eq]; omega⟩
  obtain ⟨c, held, up⟩ := info
  refine ⟨by rw [ep]; rfl, ?_, ?_, c, ?_, ?_⟩
  · rw [ep, noFailure]
    rfl
  · rw [ep, streakSame passed]
    simp [markPassCounters, successes]
  · rw [after]
    split
    · rw [beginSlowStartInfo, held]
    · exact held
  · rw [up, noFailure]
    symm
    rw [decide_eq_true_eq]
    omega

theorem failTracks {cfg : HealthConfig} {id : UInt32} {os : List Outcome} {s : Watched F}
    (tracks : Tracks cfg id os s) {o : Outcome} (failed : o.passed = false) :
    Tracks cfg id (os ++ [o]) (probe cfg s o) := by
  obtain ⟨rfl, failures, successes, b, found, health⟩ := tracks
  obtain ⟨ep, after⟩ := failInfo cfg s failed
  have more : streak false (os ++ [o]) = streak false os + 1 := streakSame failed os
  have none_ : streak true (os ++ [o]) = 0 := streakOther (by simp [failed]) os
  refine ⟨by rw [ep]; rfl, ?_, ?_, ?_⟩
  · rw [ep, more]
    simp [markFailCounters, failures]
  · rw [ep, none_]
    rfl
  · rw [after, more]
    split
    · refine ⟨_, setHealthInfo o.rt found false, ?_⟩
      symm
      rw [decide_eq_false_iff_not]
      omega
    · refine ⟨b, found, ?_⟩
      rw [health, decide_eq_decide]
      omega

theorem probeTracks {cfg : HealthConfig} (threshold : 1 ≤ cfg.failThreshold) {id : UInt32}
    {os : List Outcome} {s : Watched F} (tracks : Tracks cfg id os s) (o : Outcome) :
    Tracks cfg id (os ++ [o]) (probe cfg s o) := by
  cases outcome : o.passed with
  | true => exact passTracks threshold tracks outcome
  | false => exact failTracks tracks outcome

theorem probesTrack {cfg : HealthConfig} (threshold : 1 ≤ cfg.failThreshold) {s : Watched F}
    (start : Start s) (os : List Outcome) : Tracks cfg s.ep.id os (probes cfg s os) := by
  induction os using List.reverseRecOn with
  | nil =>
    obtain ⟨b, found, healthy⟩ := start.up
    refine ⟨rfl, start.noFailure, start.noSuccess, b, found, ?_⟩
    rw [healthy]
    symm
    rw [decide_eq_true_eq]
    exact lt_of_lt_of_le Int.zero_lt_one threshold
  | append_singleton os o ih =>
    rw [probes, List.foldl_append]
    exact probeTracks threshold ih o

theorem tracksUp {cfg : HealthConfig} {id : UInt32} {os : List Outcome} {s : Watched F}
    (tracks : Tracks cfg id os s) : Up s ↔ (streak false os : Int) < cfg.failThreshold := by
  obtain ⟨same, _, _, b, found, health⟩ := tracks
  unfold Up
  rw [same, found]
  simp [health]

/-! ### Calls and transitions in terms of the outcomes -/

theorem minSuccessesPositive (cfg : HealthConfig) : 1 ≤ minSuccesses cfg := by
  unfold minSuccesses
  split <;> omega

theorem callsExact {cfg : HealthConfig} {id : UInt32} {os : List Outcome} {s : Watched F}
    (tracks : Tracks cfg id os s) (o : Outcome) :
    Calls cfg s o ↔ (streak true (os ++ [o]) : Int) = minSuccesses cfg := by
  have positive := minSuccessesPositive cfg
  have condition : Calls cfg s o ↔ o.passed = true ∧ (streak true os : Int) + 1 = minSuccesses cfg := by
    simp [Calls, warmedUp, markPassCounters, tracks.successes, minSuccesses]
  rw [condition]
  cases outcome : o.passed with
  | true =>
    rw [streakSame outcome]
    simp
  | false =>
    rw [streakOther (by simp [outcome])]
    refine iff_of_false (by simp) ?_
    omega

theorem wentUpExact {cfg : HealthConfig} (threshold : 1 ≤ cfg.failThreshold) {s : Watched F}
    (start : Start s) (before : List Outcome) {first : Outcome} (passed : first.passed = true) :
    WentUp cfg (probes cfg s before) first ↔ cfg.failThreshold ≤ streak false before := by
  have tracks := probesTrack threshold start before
  have next := probeTracks threshold tracks first
  have noFailure : streak false (before ++ [first]) = 0 := streakOther (by simp [passed]) before
  unfold WentUp
  rw [tracksUp tracks, tracksUp next, noFailure, not_lt]
  exact and_iff_left (lt_of_lt_of_le Int.zero_lt_one threshold)

theorem recoveredExact {cfg : HealthConfig} (threshold : 1 ≤ cfg.failThreshold) {s : Watched F}
    (start : Start s) (os : List Outcome) : Recovered cfg s os ↔
      ∃ before passes, os = before ++ passes ∧ (∀ o ∈ passes, o.passed = true) ∧
        (passes.length : Int) = minSuccesses cfg ∧ cfg.failThreshold ≤ streak false before := by
  have positive := minSuccessesPositive cfg
  constructor
  · rintro ⟨before, first, later, same, up, passed, length⟩
    have down := (wentUpExact threshold start before (passed first List.mem_cons_self)).mp up
    exact ⟨before, first :: later, same, passed, length, down⟩
  · rintro ⟨before, passes, same, passed, length, down⟩
    cases passes with
    | nil =>
      rw [List.length_nil] at length
      omega
    | cons first later =>
      have up := (wentUpExact threshold start before (passed first List.mem_cons_self)).mpr down
      exact ⟨before, first, later, same, up, passed, length⟩

theorem lastFailed {before : List Outcome} (failures : streak false before ≠ 0) {o : Outcome}
    (last : before.getLast? = some o) : o.passed = false := by
  by_contra passed
  obtain ⟨rest, shape⟩ := List.getLast?_eq_some_iff.mp last
  rw [shape] at failures
  exact failures (streakOther passed rest)

theorem warmUpsLaw {cfg : HealthConfig} (threshold : 1 ≤ cfg.failThreshold) {s : Watched F}
    (start : Start s) (os : List Outcome) :
    (∀ before o after, os = before ++ o :: after →
      (Calls cfg (probes cfg s before) o ↔ Recovered cfg s (before ++ [o]))) ↔ WarmUpsEarned cfg os := by
  have positive := minSuccessesPositive cfg
  constructor
  · intro law before passes after same passed length last
    -- the last of these successes calls, so they follow a transition
    obtain ⟨init, o, shape⟩ : ∃ init o, passes = init ++ [o] := by
      rcases List.eq_nil_or_concat passes with none_ | ⟨init, o, shape⟩
      · rw [none_, List.length_nil] at length
        omega
      · exact ⟨init, o, by rw [shape, List.concat_eq_append]⟩
    have split : os = (before ++ init) ++ o :: after := by simp [same, shape]
    have joined : (before ++ init) ++ [o] = before ++ passes := by simp [shape]
    have called : Calls cfg (probes cfg s (before ++ init)) o := by
      rw [callsExact (probesTrack threshold start _), joined, ← length, Nat.cast_inj]
      exact (streakBlock _ _).mpr ⟨before, passes, rfl, passed, rfl, last⟩
    have recovered := (law _ o after split).mp called
    rw [joined, recoveredExact threshold start] at recovered
    obtain ⟨earlier, others, again, _, otherLength, down⟩ := recovered
    have sameLength : passes.length = others.length := by omega
    rw [(List.append_inj' again sameLength).1]
    exact down
  · intro earned before o after same
    rw [callsExact (probesTrack threshold start before), recoveredExact threshold start]
    constructor
    · intro warm
      obtain ⟨earlier, passes, shape, passed, length, last⟩ := (streakBlock (before ++ [o]) _).mp rfl
      have enough : (passes.length : Int) = minSuccesses cfg := by rw [length, warm]
      refine ⟨earlier, passes, shape, passed, enough, earned earlier passes after ?_ passed enough last⟩
      rw [← shape, same, List.append_assoc, List.singleton_append]
    · rintro ⟨earlier, passes, shape, passed, length, down⟩
      have last : ∀ p, earlier.getLast? = some p → p.passed = false :=
        fun p final => lastFailed (by omega) final
      rw [(streakBlock (before ++ [o]) passes.length).mpr ⟨earlier, passes, shape, passed, rfl, last⟩, length]

/-! ### Without a call there is no slow start -/

theorem probeSpared {cfg : HealthConfig} {s : Watched F} {o : Outcome} (uncalled : ¬ Calls cfg s o) :
    (probe cfg s o).ring.slowStart = s.ring.slowStart := by
  cases outcome : o.passed with
  | true =>
    obtain ⟨ring, _, marked, after⟩ := passInfo cfg s outcome
    have cold : ¬ warmedUp cfg (s.ep.consecutiveSuccesses + 1) = true :=
      fun warm => uncalled ⟨outcome, warm⟩
    rw [after, if_neg cold, marked]
    split
    · exact setFieldSlowStart o.rt s.ring s.ep.id _
    · rfl
  | false =>
    rw [(failInfo cfg s outcome).2]
    split
    · exact setFieldSlowStart o.rt s.ring s.ep.id _
    · rfl

theorem probesSpared {cfg : HealthConfig} {s : Watched F} (os : List Outcome)
    (uncalled : ∀ before o after, os = before ++ o :: after → ¬ Calls cfg (probes cfg s before) o) :
    (probes cfg s os).ring.slowStart = s.ring.slowStart := by
  induction os using List.reverseRecOn with
  | nil => rfl
  | append_singleton os o ih =>
    have earlier := ih fun before p after same =>
      uncalled before p (after ++ [o]) (by rw [same, List.append_assoc, List.cons_append])
    have last := probeSpared (uncalled os o [] rfl)
    rw [probes, List.foldl_append]
    exact last.trans earlier

theorem recoveryLawExact {cfg : HealthConfig} (threshold : 1 ≤ cfg.failThreshold) {s : Watched F}
    (start : Start s) (os : List Outcome) : RecoveryLaw cfg s os ↔ WarmUpsEarned cfg os := by
  constructor
  · exact fun law => (warmUpsLaw threshold start os).mp law.calls
  · intro earned
    have calls := (warmUpsLaw threshold start os).mpr earned
    refine ⟨calls, fun up => ?_⟩
    have uncalled : ∀ before o after, os = before ++ o :: after → ¬ Calls cfg (probes cfg s before) o := by
      intro before o after same called
      obtain ⟨earlier, first, later, shape, ⟨down, _⟩, _, _⟩ := (calls before o after same).mp called
      refine down (up earlier (first :: later ++ after) ?_)
      rw [← List.append_assoc, ← shape, same, List.append_assoc, List.singleton_append]
    rw [probesSpared os uncalled]
    exact start.calm

/-! ### One endpoint -/

def pass : Outcome := ⟨true, .plain⟩

def fail : Outcome := ⟨false, .plain⟩

def fresh : Watched ℚ := ⟨{ id := 1 }, (watched (load {})).ring⟩

theorem freshStart : Start fresh :=
  ⟨rfl, rfl, ⟨_, watchedInfo (load {}), rfl⟩, AList.notMem_empty 1⟩

theorem recoveryAfterFailure : RecoveryLaw { failThreshold := 1, minSuccessesBeforeRestore := 2 } fresh
    [fail, pass, pass] := by
  refine (recoveryLawExact (by decide) freshStart _).mpr ?_
  intro before passes after same passed length _
  have two : passes.length = 2 := Int.ofNat_inj.mp length
  rcases before with _ | ⟨o, rest⟩
  · -- the two outcomes from the start on are not both successes
    obtain ⟨a, b, shape⟩ := List.length_eq_two.mp two
    subst shape
    cases same
    exact absurd (passed fail List.mem_cons_self) (by decide)
  · have total := congrArg List.length same
    simp only [List.length_append, List.length_cons, List.length_nil] at total
    have none_ : rest = [] := List.length_eq_zero_iff.mp (by omega)
    rw [none_, ← (List.cons.inj same).1]
    decide

theorem neverDownRestored : Start fresh ∧
    ¬ RecoveryLaw { failThreshold := 3, minSuccessesBeforeRestore := 3 } fresh [pass, pass, pass] := by
  refine ⟨freshStart, fun law => ?_⟩
  have earned := (warmUpsLaw (by decide) freshStart _).mp law.calls
  have wrong := earned [] [pass, pass, pass] [] rfl (by decide) rfl (by simp)
  exact absurd wrong (by decide)

end OmegaLb.RecoveryCallback
