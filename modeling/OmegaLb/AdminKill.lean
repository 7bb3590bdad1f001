import OmegaLb.AdminHandle
import OmegaLb.StepRun

/-! A kill by the operator, against HealthChecker, which writes the same flags. -/
namespace OmegaLb.AdminKill
open GoText (Bytes ascii)
open OmegaProxy (Proxy)
open AdminHandle (Site Order Phase Input handleAdmin Flagged handleFlagged)
open StepRun (Run Guarded Does)

variable {F : Type}

/-! ### The probe loop -/

inductive Probe where
  | sleeping
  | waiting (i : Nat)
  | closing (i : Nat) (failed : Bool)
  deriving DecidableEq, Repr

structure HealthChecker where
  fails : Nat → Nat
  phase : Probe

inductive ProbeInput where
  | slept
  | answered
  | closed
  | raises
  deriving DecidableEq, Repr

def failThreshold : Nat := 3

def HealthChecker.next (c : HealthChecker) (n i : Nat) : HealthChecker :=
  { c with phase := if i + 1 < n then .waiting (i + 1) else .sleeping }

/-- The except clause. -/
def HealthChecker.failed (c : HealthChecker) (s : Site F) (i : Nat) : Site F × HealthChecker :=
  let fails := c.fails i + 1
  let c := { c with fails := Function.update c.fails i fails }
  (if failThreshold ≤ fails ∧ s.proxy.metrics.health i then s.putHealth i false else s, c.next s.proxy.ring.n i)

def HealthChecker.answered (c : HealthChecker) (s : Site F) (i : Nat) : Site F × HealthChecker :=
  if (s.backends i).handleHealth.status = 200 then
    (if s.proxy.metrics.health i then s else s.putHealth i true,
      { fails := Function.update c.fails i 0, phase := .closing i false })
  else (s, { c with phase := .closing i true })

def HealthChecker.loop (c : HealthChecker) (s : Site F) (input : ProbeInput) : Option (Site F × HealthChecker) :=
  match c.phase, input with
  | .sleeping, .slept => some (s, { c with phase := if 0 < s.proxy.ring.n then .waiting 0 else .sleeping })
  | .waiting i, .answered => some (c.answered s i)
  | .waiting i, .raises => some (c.failed s i)
  | .closing i true, .closed => some (c.failed s i)
  | .closing i false, .closed => some (s, c.next s.proxy.ring.n i)
  | .closing i _, .raises => some (c.failed s i)
  | _, _ => none

/-! ### Interleavings -/

/-- `killed` lists the backends that were killed and have not been revived since. -/
structure World (F : Type) where
  site : Site F
  checker : HealthChecker
  requests : List Phase
  killed : List Nat

inductive Event where
  | admin (i : Nat) (input : Input)
  | probe (input : ProbeInput)
  | setVnodes (backendId count : Int)

def noted (killed : List Nat) : Phase → List Nat
  | .telling .kill k _ => k :: killed
  | .telling .revive k _ => killed.filter (· ≠ k)
  | _ => killed

def World.step (intOfText : Bytes → Option Int) (w : World F) : Event → Option (World F)
  | .admin i input => do
    let phase ← w.requests[i]?
    let (site, phase) ← handleAdmin intOfText w.site phase input
    return { w with site := site, requests := w.requests.set i phase, killed := noted w.killed phase }
  | .probe input => do
    let (site, checker) ← w.checker.loop w.site input
    return { w with site := site, checker := checker }
  | .setVnodes backendId count => do
    let proxy ← w.site.proxy.setVnodes backendId count
    return { w with site := { w.site with proxy := proxy } }

/-- Neither the ring nor a retry leads to a killed backend while another one is healthy. -/
def Held (w : World F) : Prop :=
  ∀ b ∈ w.killed, (∃ other < w.site.proxy.ring.n, other ≠ b ∧ w.site.proxy.metrics.health other = true) →
    (∀ key, w.site.proxy.ring.route key ≠ b) ∧ ∀ exclude, w.site.proxy.nextHealthy exclude ≠ some b

/-! ### The flags -/

/-- The flags of the ring are those of MetricsStore. -/
def Agree (p : Proxy F) : Prop := ∀ i < p.ring.n, p.metrics.health i = p.ring.health.getD i false

def Down (p : Proxy F) (killed : List Nat) : Prop := ∀ b ∈ killed, p.metrics.health b = false

theorem healthInside {p : Proxy F} (i : Nat) : i < p.ring.n ↔ i < p.ring.health.length := by
  rw [p.ring.backends]
  exact Iff.rfl

theorem putHealthAgree {p : Proxy F} (agree : Agree p) (k : Nat) (healthy : Bool) : Agree (p.putHealth k healthy) := by
  intro i inside
  have within : i < p.ring.health.length := (healthInside i).mp inside
  have same : (p.ring.health.set k healthy).getD i false = if k = i then healthy else p.ring.health.getD i false := by
    rw [List.getD_eq_getElem _ _ (by simpa using within), List.getElem_set, List.getD_eq_getElem _ _ within]
  show Function.update p.metrics.health k healthy i = (p.ring.health.set k healthy).getD i false
  rw [same, ← agree i inside, Function.update_apply]
  simp only [eq_comm]

theorem downHeld {w : World F} (agree : Agree w.site.proxy) (down : Down w.site.proxy w.killed) : Held w := by
  intro b killed ⟨other, inside, _, healthy⟩
  have flag := down b killed
  refine ⟨fun key routed => ?_, fun exclude found => ?_⟩
  · have routable := HaRing.routeHealthy w.site.proxy.ring (agree other inside ▸ healthy) key
    have within := HaRing.routeInside w.site.proxy.ring (Nat.zero_lt_of_lt inside) key
    rw [← agree _ within, routed, flag] at routable
    exact Bool.false_ne_true routable
  · obtain ⟨_, _, up⟩ := OmegaProxy.nextHealthySome found
    exact Bool.false_ne_true (flag.symm.trans up)

/-! ### One step -/

structure Known (w : World F) : Prop where
  agree : Agree w.site.proxy
  listed : ∀ b ∈ w.killed, b < w.site.proxy.ring.n

def ordered (killed : List Nat) (k : Nat) : Order → List Nat
  | .kill => k :: killed
  | .revive => killed.filter (· ≠ k)

/-- What a step makes of the flags: only an order changes what is killed, and only a revive or a
probe that is answered raises a flag. -/
inductive Moved (w : World F) (e : Event) (t : World F) : Prop where
  | still (flags : t.site.proxy.metrics = w.site.proxy.metrics) (ring : t.site.proxy.ring.health = w.site.proxy.ring.health)
      (size : t.site.proxy.ring.n = w.site.proxy.ring.n) (kept : t.killed = w.killed)
  | ordered (order : Order) (k : Nat) (inside : k < w.site.proxy.ring.n)
      (set : t.site.proxy = w.site.proxy.putHealth k order.healthy) (noted : t.killed = ordered w.killed k order)
  | lowered (i : Nat) (set : t.site.proxy = w.site.proxy.putHealth i false) (kept : t.killed = w.killed)
  | raised (i : Nat) (event : e = .probe .answered) (at_ : w.checker.phase = .waiting i)
      (set : t.site.proxy = w.site.proxy.putHealth i true) (kept : t.killed = w.killed)

theorem setVnodesMoved {p q : Proxy F} {backendId count : Int} (set : p.setVnodes backendId count = some q) :
    q.metrics = p.metrics ∧ q.ring.health = p.ring.health ∧ q.ring.n = p.ring.n := by
  obtain ⟨ring, found, rfl⟩ := Option.map_eq_some_iff.mp set
  obtain ⟨k, _, rfl⟩ := Option.map_eq_some_iff.mp found
  exact ⟨rfl, rfl, List.length_set⟩

theorem failedMoved (w : World F) (e : Event) (i : Nat) :
    Moved w e { w with site := (w.checker.failed w.site i).1, checker := (w.checker.failed w.site i).2 } := by
  by_cases falls : failThreshold ≤ w.checker.fails i + 1 ∧ w.site.proxy.metrics.health i
  · exact .lowered i (by rw [HealthChecker.failed]; simp only [if_pos falls]; rfl) rfl
  · have same : (w.checker.failed w.site i).1 = w.site := if_neg falls
    simp only [same]
    exact .still rfl rfl rfl rfl

theorem answeredMoved {w : World F} {i : Nat} (at_ : w.checker.phase = .waiting i) :
    Moved w (.probe .answered)
      { w with site := (w.checker.answered w.site i).1, checker := (w.checker.answered w.site i).2 } := by
  by_cases healthy : w.site.proxy.metrics.health i
  · have same : (w.checker.answered w.site i).1 = w.site := if_pos healthy
    simp only [same]
    exact .still rfl rfl rfl rfl
  · have put : (w.checker.answered w.site i).1 = w.site.putHealth i true := if_neg healthy
    exact .raised i rfl at_ (congrArg Site.proxy put) rfl

theorem stepMoved {intOfText : Bytes → Option Int} {w t : World F} {e : Event}
    (step : Does (World.step intOfText) w e t) : Moved w e t := by
  cases e with
  | admin i input =>
    obtain ⟨phase, _, step⟩ := Option.bind_eq_some_iff.mp step
    obtain ⟨⟨site, phase⟩, done, same⟩ := Option.bind_eq_some_iff.mp step
    cases same
    cases handleFlagged done with
    | kept same silent =>
      have kept : noted w.killed phase = w.killed := by
        unfold noted
        split
        · exact absurd rfl (silent _ _ _)
        · exact absurd rfl (silent _ _ _)
        · rfl
      exact .still (congrArg _ same) (congrArg (·.ring.health) same) (congrArg (·.ring.n) same) kept
    | @set _ order k data inside changed =>
      exact .ordered order k inside changed (by cases order <;> rfl)
  | probe input =>
    obtain ⟨⟨site, checker⟩, done, same⟩ := Option.bind_eq_some_iff.mp step
    cases same
    unfold HealthChecker.loop at done
    split at done <;> cases done
    · exact .still rfl rfl rfl rfl
    · exact answeredMoved ‹_›
    · exact failedMoved w _ _
    · exact failedMoved w _ _
    · exact .still rfl rfl rfl rfl
    · exact failedMoved w _ _
  | setVnodes backendId count =>
    obtain ⟨proxy, done, same⟩ := Option.bind_eq_some_iff.mp step
    obtain ⟨flags, ring, size⟩ := setVnodesMoved done
    cases same
    exact .still flags ring size rfl

theorem stepKnown {w t : World F} {e : Event} (known : Known w) (moved : Moved w e t) : Known t := by
  have put {k : Nat} {healthy : Bool} (set : t.site.proxy = w.site.proxy.putHealth k healthy)
      (listed : ∀ b ∈ t.killed, b < w.site.proxy.ring.n) : Known t := by
    refine ⟨set ▸ putHealthAgree known.agree k healthy, ?_⟩
    rw [set]
    exact listed
  cases moved with
  | still flags ring size kept =>
    refine ⟨?_, ?_⟩
    · rw [Agree, flags, ring, size]
      exact known.agree
    · rw [kept, size]
      exact known.listed
  | ordered order k inside set noted =>
    refine put set ?_
    rw [noted]
    cases order with
    | kill => exact List.forall_mem_cons.mpr ⟨inside, known.listed⟩
    | revive => exact fun b listed => known.listed b (List.mem_of_mem_filter listed)
  | lowered i set kept => exact put set (kept ▸ known.listed)
  | raised i event at_ set kept => exact put set (kept ▸ known.listed)

def Probe.Spares (killed : List Nat) : Probe → Prop
  | .waiting i => i ∉ killed
  | .sleeping | .closing _ _ => True

instance (killed : List Nat) : ∀ p, Decidable (Probe.Spares killed p)
  | .waiting i => inferInstanceAs (Decidable (i ∉ killed))
  | .sleeping | .closing _ _ => .isTrue trivial

/-- No backend that is killed answers a probe. -/
def Spared (w : World F) : Event → Prop
  | .probe .answered => w.checker.phase.Spares w.killed
  | _ => True

instance (w : World F) : ∀ e, Decidable (Spared w e)
  | .probe .answered => inferInstanceAs (Decidable (w.checker.phase.Spares w.killed))
  | .probe .slept | .probe .closed | .probe .raises | .admin _ _ | .setVnodes _ _ => .isTrue trivial

theorem putHealthFlag (p : Proxy F) (k : Nat) (healthy : Bool) (i : Nat) :
    (p.putHealth k healthy).metrics.health i = if i = k then healthy else p.metrics.health i :=
  Function.update_apply _ _ _ _

theorem putHealthLowers {p : Proxy F} {killed : List Nat} (down : Down p killed) (k : Nat) :
    Down (p.putHealth k false) (k :: killed) := by
  intro b listed
  rw [putHealthFlag]
  split
  · rfl
  · rename_i other
    exact down b ((List.mem_cons.mp listed).resolve_left other)

theorem putHealthElsewhere {p : Proxy F} {killed : List Nat} (down : Down p killed) {k : Nat} (apart : k ∉ killed)
    (healthy : Bool) : Down (p.putHealth k healthy) killed := by
  intro b listed
  have other : b ≠ k := fun same => apart (same ▸ listed)
  rw [putHealthFlag, if_neg other]
  exact down b listed

theorem stepDown {w t : World F} {e : Event} (down : Down w.site.proxy w.killed) (spared : Spared w e)
    (moved : Moved w e t) : Down t.site.proxy t.killed := by
  cases moved with
  | still flags ring size kept =>
    rw [Down, flags, kept]
    exact down
  | ordered order k inside set noted =>
    rw [set, noted]
    cases order with
    | kill => exact putHealthLowers down k
    | revive =>
      have fewer : Down w.site.proxy (w.killed.filter (· ≠ k)) := fun b listed =>
        down b (List.mem_of_mem_filter listed)
      exact putHealthElsewhere fewer (by simp) true
  | lowered i set kept =>
    rw [set, kept]
    exact fun b listed => putHealthLowers down i b (List.mem_cons_of_mem i listed)
  | raised i event at_ set kept =>
    subst event
    rw [Spared, at_] at spared
    rw [set, kept]
    exact putHealthElsewhere down spared true

/-! ### Runs -/

def World.Fresh (w : World F) : Prop := Agree w.site.proxy ∧ w.killed = []

theorem answeredRouted {p : Proxy F} {b : Nat} (inside : b < p.ring.n) :
    (p.putHealth b true).nextHealthy (List.range b) = some b := by
  refine List.find?_range_eq_some.mpr ⟨?_, List.mem_range.mpr inside, fun j before => ?_⟩
  · simp [putHealthFlag]
  · simp [before]

theorem answeredRaises {s : Site F} {i : Nat} (flag : s.proxy.metrics.health i = false) (c : HealthChecker) :
    c.answered s i = (s.putHealth i true, ⟨Function.update c.fails i 0, .closing i false⟩) := by
  have status : (s.backends i).handleHealth.status = 200 := rfl
  rw [HealthChecker.answered, if_pos status, flag]
  rfl

theorem answeredUndoes {intOfText : Bytes → Option Int} {w t : World F} {b other : Nat} (known : Known w)
    (down : Down w.site.proxy w.killed) (at_ : w.checker.phase = .waiting b) (killed : b ∈ w.killed)
    (inside : other < w.site.proxy.ring.n) (apart : other ≠ b) (healthy : w.site.proxy.metrics.health other = true)
    (step : Does (World.step intOfText) w (.probe .answered) t) : ¬ Held t := by
  have same : t = { w with
      site := w.site.putHealth b true
      checker := ⟨Function.update w.checker.fails b 0, .closing b false⟩ } := by
    simpa [Does, World.step, HealthChecker.loop, at_, answeredRaises (down b killed)] using step.symm
  subst same
  have up : (w.site.proxy.putHealth b true).metrics.health other = true := by
    rw [putHealthFlag, if_neg apart]
    exact healthy
  exact fun held => (held b killed ⟨other, inside, apart, up⟩).2 (List.range b) (answeredRouted (known.listed b killed))

theorem freshKnown {w : World F} (fresh : w.Fresh) : Known w ∧ Down w.site.proxy w.killed := by
  obtain ⟨agree, none_⟩ := fresh
  refine ⟨⟨agree, ?_⟩, ?_⟩
  · rw [none_]
    exact nofun
  · rw [none_]
    exact nofun

/-- The kill holds as long as no killed backend answers a probe, and the first that does undoes it. -/
theorem killHolds {intOfText : Bytes → Option Int} {w t : World F} (fresh : w.Fresh) {events : List Event}
    (run : Run (Guarded Spared (Does (World.step intOfText))) w events t) :
    Held t ∧ ∀ b other u, t.checker.phase = .waiting b → b ∈ t.killed →
      other < t.site.proxy.ring.n → other ≠ b → t.site.proxy.metrics.health other = true →
      Does (World.step intOfText) t (.probe .answered) u → ¬ Held u := by
  have kept : ∀ (s : World F) (e : Event) (u : World F), Known s ∧ Down s.site.proxy s.killed → Spared s e →
      Does (World.step intOfText) s e u → Known u ∧ Down u.site.proxy u.killed := by
    intro s e u held spared step
    have moved := stepMoved step
    exact ⟨stepKnown held.1 moved, stepDown held.2 spared moved⟩
  obtain ⟨known, down⟩ := StepRun.guardedInvariant kept run (freshKnown fresh)
  refine ⟨downHeld known.agree down, ?_⟩
  intro b other u at_ killed inside apart healthy step
  exact answeredUndoes known down at_ killed inside apart healthy step

/-! ### A probe that revives -/

def two : World ℚ where
  site :=
    { proxy := ⟨HaRing.start 2 10 HaRing.fewVnodes, ⟨fun _ => 0, fun _ => 0, fun _ => 0, fun _ => 0, (· < 2)⟩,
        fun _ => ⟨100, 100, 0⟩, 0⟩
      backends := fun _ => ⟨false, 3 / 10⟩
      spikeFlag := none
      disk := .writable }
  checker := ⟨fun _ => 0, .sleeping⟩
  requests := [.arrived]
  killed := []

theorem twoFresh : two.Fresh := by
  refine ⟨fun i inside => ?_, rfl⟩
  have two_ : i < 2 := inside
  interval_cases i <;> rfl

/-- Backend 0 is killed by its index from the end, and its next probe fails. -/
def killed : List Event :=
  [.admin 0 (.gate none), .admin 0 (.body (.dict [(ascii "kill_backend", .int (-2))])), .admin 0 .told,
    .probe .slept, .probe .raises, .probe .answered]

def undone : List Event :=
  [.admin 0 (.gate none), .admin 0 (.body (.dict [(ascii "kill_backend", .int 0)])), .admin 0 .told,
    .probe .slept, .probe .answered]

theorem killHoldsFailing : ∃ t, Run (Guarded Spared (Does (World.step fun _ => none))) two killed t ∧
    t.killed = [0] ∧ Held t := by
  have ⟨t, run, last⟩ : ∃ t, Run (Guarded Spared (Does (World.step fun _ => none))) two killed t ∧
      decide (t.killed = [0]) = true := StepRun.runGuardedAny (by decide +kernel)
  exact ⟨t, run, of_decide_eq_true last, (killHolds twoFresh run).1⟩

theorem probeRevives : ¬ ∀ (w t : World ℚ) (events : List Event), w.Fresh →
    Run (Does (World.step fun _ => none)) w events t → Held t := by
  intro promised
  have ⟨t, run, back⟩ : ∃ t, Run (Does (World.step fun _ => none)) two undone t ∧
      decide (0 ∈ t.killed ∧ 1 < t.site.proxy.ring.n ∧ t.site.proxy.metrics.health 1 = true ∧
        t.site.proxy.ring.route (ascii "10.0.0.9:/:1") = 0) = true := StepRun.runAny (by decide +kernel)
  obtain ⟨listed, inside, healthy, routed⟩ := of_decide_eq_true back
  exact (promised _ _ _ twoFresh run 0 listed ⟨1, inside, Nat.one_ne_zero, healthy⟩).1 _ routed

end OmegaLb.AdminKill
