import OmegaLb.GoText
import OmegaLb.StepRun

/-! NginxWriter of nginx.go. The update handler of Run and the callback of the debounce timer are
atomic; the C of such a timer is nil, so the third case of the select never runs. Times are
nanoseconds on the clock of the process. -/
namespace OmegaLb.NginxWriter
open GoText (Bytes ascii decimal)
open StepRun (Run Along Guarded Does)

structure BackendEntry where
  address : Bytes
  weight : Int
  down : Bool
  deriving DecidableEq, Repr

/-! ### The config file -/

def weightText (weight : Int) : Bytes :=
  if weight < 0 then ascii "-" ++ decimal weight.natAbs else decimal weight.natAbs

def serverLine (b : BackendEntry) : Bytes :=
  ascii "\n    server " ++ b.address ++ ascii " weight=" ++ weightText b.weight ++
    if b.down then ascii " down;" else ascii ";"

/-- upstreamTemplate, with a dash in its first line that is not ASCII. -/
def render (backends : List BackendEntry) : Bytes :=
  ascii "\n# Generated by Omega-LB fallback mode " ++ [0xE2, 0x80, 0x94] ++
    ascii " do not edit by hand.\n# Regenerated on topology change; reload triggered via SIGHUP.\n" ++
    ascii "upstream omega_lb_backends \x7b\n" ++
    ascii "    least_conn;  # approximates H&A bounded-load; upgrade to eBPF mode for true H&A" ++
    backends.flatMap serverLine ++
    ascii "\n\n    keepalive 256;\n    keepalive_requests 10000;\n    keepalive_timeout 60s;\n\x7d\n"

/-- omega-lb-upstream.conf and the temporary file beside it. -/
structure Disk where
  conf : Option Bytes
  tmp : Option Bytes
  deriving DecidableEq, Repr

inductive ConfigError where
  | noBackends
  | write (cause : Bytes)
  | rename (cause : Bytes)
  deriving DecidableEq, Repr

def ConfigError.text (tmp : Bytes) : ConfigError → Bytes
  | .noBackends => ascii "fallback: no backends; refusing to write empty upstream config"
  | .write cause => ascii "fallback: write " ++ tmp ++ ascii ": " ++ cause
  | .rename cause => ascii "fallback: rename upstream config: " ++ cause

/-- A cause makes that call of the file system fail; a write may leave something behind. -/
structure ConfigCalls where
  write : Option (Option Bytes × Bytes) := none
  rename : Option Bytes := none
  deriving DecidableEq, Repr

def ConfigCalls.works (io : ConfigCalls) : Prop := io.write = none ∧ io.rename = none

instance (io : ConfigCalls) : Decidable io.works := inferInstanceAs (Decidable (_ ∧ _))

def writeConfig (d : Disk) (io : ConfigCalls) (backends : List BackendEntry) : Disk × Except ConfigError Unit :=
  if backends = [] then (d, .error .noBackends)
  else
    match io.write with
    | some (left, cause) => ({ d with tmp := left }, .error (.write cause))
    | none =>
      match io.rename with
      | some cause => ({ d with tmp := some (render backends) }, .error (.rename cause))
      | none => (⟨some (render backends), none⟩, .ok ())

/-! ### Run -/

def reloadDelay : Int := 200000000

/-- `timer` is when the last timer is due, until its callback has run or Stop takes it away;
`late` counts the callbacks that Stop came too late for. `received` is the last update. -/
structure Writer where
  clock : Int
  pending : Option (List BackendEntry)
  reloadAt : Int
  timer : Option Int
  late : Nat
  disk : Disk
  received : Option (List BackendEntry)
  deriving DecidableEq, Repr

inductive Event where
  /-- `now` sets the deadline, `armed` starts the timer; `stopped` is what Stop did to the last one. -/
  | update (backends : List BackendEntry) (now armed : Int) (stopped : Bool)
  | callback (now : Int) (io : ConfigCalls)
  | lateCallback (now : Int) (io : ConfigCalls)
  deriving DecidableEq, Repr

def Writer.update (w : Writer) (backends : List BackendEntry) (now armed : Int) (stopped : Bool) : Writer where
  clock := armed
  pending := some backends
  reloadAt := now + reloadDelay
  timer := some (armed + reloadDelay)
  late := if stopped then w.late else w.late + w.timer.toList.length
  disk := w.disk
  received := some backends

def Writer.flushConfig (w : Writer) (io : ConfigCalls) : Writer :=
  match w.pending with
  | none => w
  | some backends => { w with pending := none, disk := (writeConfig w.disk io backends).1 }

def Writer.timerFunc (w : Writer) (now : Int) (io : ConfigCalls) : Writer :=
  let w := { w with clock := now }
  if now > w.reloadAt then w.flushConfig io else w

def Writer.fire (w : Writer) : Writer := { w with timer := none }
def Writer.fireLate (w : Writer) : Writer := { w with late := w.late - 1 }

/-- Stop fails only on a timer that has expired. -/
def Writer.step (w : Writer) : Event → Option Writer
  | .update backends now armed stopped =>
    if backends ≠ [] ∧ w.clock ≤ now ∧ now ≤ armed ∧ (stopped ∨ ∀ due ∈ w.timer, due ≤ armed) then
      some (w.update backends now armed stopped)
    else none
  | .callback now io => do
    let due ← w.timer
    if w.clock ≤ now ∧ due ≤ now then some (w.fire.timerFunc now io) else none
  | .lateCallback now io =>
    if w.clock ≤ now ∧ 0 < w.late then some (w.fireLate.timerFunc now io) else none

def start (clock : Int) (disk : Disk) : Writer := ⟨clock, none, 0, none, 0, disk, none⟩

def Writer.Outstanding (w : Writer) : Prop := w.timer ≠ none ∨ 0 < w.late

instance (w : Writer) : Decidable w.Outstanding := inferInstanceAs (Decidable (_ ∨ _))

def Writer.Current (w : Writer) : Prop := ∀ u, w.received = some u → w.disk.conf = some (render u)

/-- No update is dropped: it waits for a timer, or it is on disk. -/
structure Settled (w : Writer) : Prop where
  waiting : w.pending ≠ none → w.Outstanding
  written : w.pending = none → w.Current

theorem settledCurrent {w : Writer} (settled : Settled w) (quiet : ¬ w.Outstanding) : w.Current :=
  settled.written (by_contra fun waits => quiet (settled.waiting waits))

/-- What is asked of a callback that has taken `w`'s timer: past the deadline it can write, and
before it another timer is to come. -/
def Spares (w : Writer) (now : Int) (io : ConfigCalls) : Prop :=
  ∀ u ∈ w.pending, if now > w.reloadAt then io.works ∨ w.disk.conf = some (render u) else w.Outstanding

instance (w : Writer) (now : Int) (io : ConfigCalls) : Decidable (Spares w now io) :=
  inferInstanceAs (Decidable (∀ u ∈ w.pending, _))

def Spared (w : Writer) : Event → Prop
  | .update .. => True
  | .callback now io => Spares w.fire now io
  | .lateCallback now io => Spares w.fireLate now io

instance (w : Writer) : ∀ e, Decidable (Spared w e)
  | .update .. => .isTrue trivial
  | .callback now io => inferInstanceAs (Decidable (Spares w.fire now io))
  | .lateCallback now io => inferInstanceAs (Decidable (Spares w.fireLate now io))

/-- What is waiting is the last update, and a timer is never due before the deadline. -/
structure Tracked (w : Writer) : Prop where
  last : ∀ u, w.pending = some u → w.received = some u
  nonempty : ∀ u, w.received = some u → u ≠ []
  deadline : ∀ due, w.timer = some due → w.reloadAt ≤ due

theorem trackedStart (clock : Int) (disk : Disk) : Tracked (start clock disk) :=
  ⟨nofun, nofun, nofun⟩

theorem settledStart (clock : Int) (disk : Disk) : Settled (start clock disk) :=
  ⟨fun waits => absurd rfl waits, fun _ => nofun⟩

theorem writeConfigConf (d : Disk) (io : ConfigCalls) {backends : List BackendEntry} (nonempty : backends ≠ []) :
    (writeConfig d io backends).1.conf = if io.works then some (render backends) else d.conf := by
  obtain ⟨write, rename⟩ := io
  rw [writeConfig, if_neg nonempty]
  cases write with
  | some cut => simp [ConfigCalls.works]
  | none =>
    cases rename with
    | some cause => simp [ConfigCalls.works]
    | none => simp [ConfigCalls.works]

theorem timerFuncKeeps (w : Writer) (now : Int) (io : ConfigCalls) :
    (w.timerFunc now io).received = w.received ∧ (w.timerFunc now io).timer = w.timer ∧
      (w.timerFunc now io).late = w.late ∧ (w.timerFunc now io).reloadAt = w.reloadAt ∧
      ∀ u, (w.timerFunc now io).pending = some u → w.pending = some u := by
  unfold Writer.timerFunc
  dsimp only
  split
  · unfold Writer.flushConfig
    split
    · exact ⟨rfl, rfl, rfl, rfl, fun u waits => waits⟩
    · exact ⟨rfl, rfl, rfl, rfl, nofun⟩
  · exact ⟨rfl, rfl, rfl, rfl, fun u waits => waits⟩

theorem fireTracked {w : Writer} (tracked : Tracked w) : Tracked w.fire ∧ Tracked w.fireLate :=
  ⟨⟨tracked.last, tracked.nonempty, fun _ => nofun⟩, ⟨tracked.last, tracked.nonempty, tracked.deadline⟩⟩

theorem timerFuncTracked {w : Writer} (tracked : Tracked w) (now : Int) (io : ConfigCalls) :
    Tracked (w.timerFunc now io) := by
  obtain ⟨received, timer, _, reloadAt, pending⟩ := timerFuncKeeps w now io
  constructor
  · intro u waits
    rw [received]
    exact tracked.last u (pending u waits)
  · rw [received]
    exact tracked.nonempty
  · rw [timer, reloadAt]
    exact tracked.deadline

/-- A late callback writes what is waiting, and the file is then behind only where the write failed. -/
theorem flushSettled {w : Writer} (tracked : Tracked w) {u : List BackendEntry} (waiting : w.pending = some u)
    (now : Int) (io : ConfigCalls) :
    Settled { w with clock := now, pending := none, disk := (writeConfig w.disk io u).1 } ↔
      io.works ∨ w.disk.conf = some (render u) := by
  have last := tracked.last u waiting
  have conf := writeConfigConf w.disk io (tracked.nonempty u last)
  constructor
  · intro settled
    have current := settled.written rfl u last
    rw [conf] at current
    split at current
    · exact .inl ‹_›
    · exact .inr current
  · intro spares
    refine ⟨fun waits => absurd rfl waits, fun _ v named => ?_⟩
    cases Option.some.inj (last.symm.trans named)
    rw [conf]
    split
    · rfl
    · exact spares.resolve_left ‹_›

/-- `w` is the writer whose timer the callback has taken. -/
theorem timerFuncSettled {w : Writer} (tracked : Tracked w) (written : w.pending = none → w.Current)
    (now : Int) (io : ConfigCalls) : Settled (w.timerFunc now io) ↔ Spares w now io := by
  unfold Spares
  cases waiting : w.pending with
  | none =>
    refine iff_of_true ?_ nofun
    have same : w.timerFunc now io = { w with clock := now } := by
      unfold Writer.timerFunc Writer.flushConfig
      simp [waiting]
    rw [same]
    exact ⟨fun waits => absurd waiting waits, written⟩
  | some u =>
    simp only [Option.mem_some, forall_eq']
    by_cases past : now > w.reloadAt
    · have same : w.timerFunc now io =
          { w with clock := now, pending := none, disk := (writeConfig w.disk io u).1 } := by
        unfold Writer.timerFunc Writer.flushConfig
        simp [past, waiting]
      rw [if_pos past, same]
      exact flushSettled tracked waiting now io
    · have same : w.timerFunc now io = { w with clock := now } := by
        unfold Writer.timerFunc
        simp [past]
      rw [if_neg past, same]
      constructor
      · intro settled
        exact settled.waiting (by simp [waiting])
      · intro outstanding
        exact ⟨fun _ => outstanding, fun nothing => absurd (waiting.symm.trans nothing) nofun⟩

theorem stepTracked (w : Writer) (e : Event) (t : Writer) (tracked : Tracked w)
    (step : Does Writer.step w e t) : Tracked t := by
  cases e with
  | update backends now armed stopped =>
    simp only [Does, Writer.step] at step
    split at step
    case isFalse => cases step
    case isTrue allowed =>
      cases step
      refine ⟨fun u waits => waits, fun u named => ?_, fun due set => ?_⟩
      · cases named
        exact allowed.1
      · cases set
        have order := allowed.2.2.1
        simp only [Writer.update]
        omega
  | callback now io =>
    obtain ⟨due, timer, step⟩ := Option.bind_eq_some_iff.mp step
    split at step
    case isFalse => cases step
    case isTrue =>
      cases step
      exact timerFuncTracked (fireTracked tracked).1 now io
  | lateCallback now io =>
    simp only [Does, Writer.step] at step
    split at step
    case isFalse => cases step
    case isTrue =>
      cases step
      exact timerFuncTracked (fireTracked tracked).2 now io

theorem stepSettled (w : Writer) (e : Event) (t : Writer) (tracked : Tracked w) (settled : Settled w)
    (step : Does Writer.step w e t) : Settled t ↔ Spared w e := by
  cases e with
  | update backends now armed stopped =>
    simp only [Does, Writer.step] at step
    split at step
    case isFalse => cases step
    case isTrue =>
      cases step
      refine iff_of_true ⟨fun _ => .inl (Option.some_ne_none _), fun idle => ?_⟩ trivial
      cases idle
  | callback now io =>
    obtain ⟨due, timer, step⟩ := Option.bind_eq_some_iff.mp step
    split at step
    case isFalse => cases step
    case isTrue =>
      cases step
      exact timerFuncSettled (fireTracked tracked).1 settled.written now io
  | lateCallback now io =>
    simp only [Does, Writer.step] at step
    split at step
    case isFalse => cases step
    case isTrue =>
      cases step
      exact timerFuncSettled (fireTracked tracked).2 settled.written now io

/-- A timer's own callback is before its deadline only at the very tick of it. -/
theorem skippedAtDeadline {w t : Writer} {now : Int} {io : ConfigCalls} (tracked : Tracked w)
    (step : Does Writer.step w (.callback now io) t) (early : ¬ now > w.reloadAt) :
    now = w.reloadAt ∧ w.timer = some now := by
  obtain ⟨due, timer, step⟩ := Option.bind_eq_some_iff.mp step
  split at step
  case isFalse => cases step
  case isTrue passed =>
    have deadline := tracked.deadline due timer
    have same : due = now := by omega
    exact ⟨by omega, same ▸ timer⟩

theorem convergesExactly (clock : Int) (disk : Disk) {events : List Event} {w : Writer} :
    (Run (Along Settled (Does Writer.step)) (start clock disk) events w ↔
      Run (Guarded Spared (Does Writer.step)) (start clock disk) events w) ∧
    (Run (Guarded Spared (Does Writer.step)) (start clock disk) events w → ¬ w.Outstanding → w.Current) := by
  have exactly_ : Run (Along Settled (Does Writer.step)) (start clock disk) events w ↔
      Run (Guarded Spared (Does Writer.step)) (start clock disk) events w :=
    StepRun.alongGuarded stepTracked stepSettled (trackedStart clock disk) (settledStart clock disk)
  refine ⟨exactly_, fun run quiet => ?_⟩
  have settled := StepRun.runInvariant (fun _ _ _ _ taken => taken.2) (exactly_.mpr run) (settledStart clock disk)
  exact settledCurrent settled quiet

/-! ### Two ways to drop an update -/

def Event.Writes : Event → Prop
  | .update .. => True
  | .callback _ io => io.works
  | .lateCallback _ io => io.works

def backendA : BackendEntry := ⟨ascii "10.0.0.1:80", 1, false⟩
def backendB : BackendEntry := ⟨ascii "10.0.0.2:80", 1, true⟩

/-- The second update comes while the callback for the first one is about to run. -/
def overlapping : List Event :=
  [.update [backendA] 0 1 true, .update [backendA, backendB] 200000001 200000002 false,
    .lateCallback 200000003 {}, .callback 400000002 {}]

theorem convergesOverlapping : ∃ w, Run (Guarded Spared (Does Writer.step)) (start 0 ⟨none, none⟩) overlapping w ∧
    ¬ w.Outstanding ∧ w.Current := by
  have run : Run (Guarded Spared (Does Writer.step)) (start 0 ⟨none, none⟩) overlapping _ :=
    StepRun.runGuardedRun rfl
  exact ⟨_, run, by decide, (convergesExactly 0 ⟨none, none⟩).2 run (by decide)⟩

theorem updatesDropped :
    (¬ ∀ (clock : Int) (disk : Disk) (events : List Event) (w : Writer),
      Run (Does Writer.step) (start clock disk) events w → (∀ e ∈ events, e.Writes) → ¬ w.Outstanding →
        w.Current) ∧
    ∃ events w, Run (Does Writer.step) (start 0 ⟨none, none⟩) events w ∧ ¬ w.Outstanding ∧
      w.pending = none ∧ ¬ w.Current := by
  constructor
  · intro promised
    have atDeadline : Run (Does Writer.step) (start 0 ⟨none, none⟩)
        [.update [backendA] 0 0 true, .callback 200000000 {}] _ := StepRun.runFoldlM rfl
    have writes : ∀ e ∈ [Event.update [backendA] 0 0 true, .callback 200000000 {}], e.Writes := by
      simp [Event.Writes, ConfigCalls.works]
    have current := promised _ _ _ _ atDeadline writes (by decide) [backendA] rfl
    exact nomatch current
  · have fails : Run (Does Writer.step) (start 0 ⟨none, none⟩)
        [.update [backendA] 0 0 true, .callback 200000001 { rename := some (ascii "denied") }] _ :=
      StepRun.runFoldlM rfl
    exact ⟨_, _, fails, by decide, rfl, fun current => nomatch current [backendA] rfl⟩

end OmegaLb.NginxWriter
