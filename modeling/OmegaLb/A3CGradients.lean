import OmegaLb.A3CWorker
import OmegaLb.StepRun

/-! The gradients that A3CWorker threads add into the shared actor and the optimizer steps that read
them. A step is one of the three the threads take by themselves; what load_state_dict copied may be
anything, since other threads step while it copies. No line of the source clears the shared gradients. -/
namespace OmegaLb.A3C
open StepRun (Run Does runAppend runTrace everySet)

/-- `π` are the parameters that both actors have, `T` their tensors, `O` the state of one Adam. -/
structure Training (E S Q R K π T O : Type) where
  actor : (π → T) → Worker E S Q R K
  totalSteps : Nat
  backward : (π → T) → Segment S K → List K → π → T
  adamStep : O → (π → T) → (π → Option T) → O × (π → T)

inductive Phase (π T : Type) where
  | idle
  | computed (id : Nat) (grads : π → T)
  | applied

structure A3CWorker (E S R π T O : Type) where
  position : Position E S R
  opt : O
  phase : Phase π T

/-- The shared actor and its workers. The last three fields keep account of the gradients computed, of those
that are in `grads`, and of those that each optimizer step found there. -/
structure Shared (E S R π T O : Type) where
  params : π → T
  grads : π → Option T
  workers : List (A3CWorker E S R π T O)
  computed : List (π → T)
  pending : List Nat
  consumed : List (List Nat)

inductive Event (π T : Type) where
  | compute (w : Nat) (localActor : π → T)
  | applyGradients (w : Nat)
  | optStep (w : Nat)

def Event.computes {π T : Type} : Event π T → Bool
  | .compute _ _ => true
  | _ => false

section Model
variable {E S Q R K π T O : Type}

def applyGradients [Add T] (grads : π → Option T) (localGrads : π → T) : π → Option T := fun param =>
  match grads param with
  | none => some (localGrads param)
  | some grad => some (grad + localGrads param)

def Training.exec [CommRing K] [Add T] (t : Training E S Q R K π T O) (s : Shared E S R π T O) :
    Event π T → Option (Shared E S R π T O)
  | .compute w localActor =>
    match s.workers[w]? with
    | some ⟨position, opt, .idle⟩ =>
      if position.totalSteps < t.totalSteps then
        let (next, seg) := (t.actor localActor).segment position
        (seg.returns (t.actor localActor).gamma).map fun returns =>
          let grads := t.backward localActor seg returns
          { s with workers := s.workers.set w ⟨next, opt, .computed s.computed.length grads⟩
                   computed := s.computed ++ [grads] }
      else none
    | _ => none
  | .applyGradients w =>
    match s.workers[w]? with
    | some ⟨position, opt, .computed id grads⟩ =>
      some { s with grads := applyGradients s.grads grads
                    workers := s.workers.set w ⟨position, opt, .applied⟩
                    pending := s.pending ++ [id] }
    | _ => none
  | .optStep w =>
    match s.workers[w]? with
    | some ⟨position, opt, .applied⟩ =>
      let (opt, params) := t.adamStep opt s.params s.grads
      some { s with params := params
                    workers := s.workers.set w ⟨position, opt, .idle⟩
                    consumed := s.consumed ++ [s.pending] }
    | _ => none

def Phase.busy : Phase π T → Bool
  | .idle => false
  | _ => true

@[simp] theorem idleBusy : (Phase.idle : Phase π T).busy = false := rfl
@[simp] theorem computedBusy (id : Nat) (grads : π → T) : (Phase.computed id grads).busy = true := rfl
@[simp] theorem appliedBusy : (Phase.applied : Phase π T).busy = true := rfl

structure Start (s : Shared E S R π T O) : Prop where
  grads : s.grads = fun _ => none
  idle : ∀ worker ∈ s.workers, worker.phase = .idle
  computed : s.computed = []
  pending : s.pending = []
  consumed : s.consumed = []

/-! ### What is promised -/

/-- Each gradient computed so far was found by exactly one optimizer step. -/
def AppliedOnce (s : Shared E S R π T O) : Prop :=
  ∀ id, id < s.computed.length → s.consumed.countP (·.contains id) = 1

/-! ### One step -/

inductive Moved [Add T] (s : Shared E S R π T O) : Event π T → Shared E S R π T O → Prop where
  | compute {w localActor position opt} (next grads)
      (idle : s.workers[w]? = some ⟨position, opt, .idle⟩) : Moved s (.compute w localActor)
        { s with workers := s.workers.set w ⟨next, opt, .computed s.computed.length grads⟩
                 computed := s.computed ++ [grads] }
  | applyGradients {w position opt id grads} (computed : s.workers[w]? = some ⟨position, opt, .computed id grads⟩) :
      Moved s (.applyGradients w)
        { s with grads := applyGradients s.grads grads
                 workers := s.workers.set w ⟨position, opt, .applied⟩
                 pending := s.pending ++ [id] }
  | optStep {w position opt} (after params) (applied : s.workers[w]? = some ⟨position, opt, .applied⟩) :
      Moved s (.optStep w)
        { s with params := params
                 workers := s.workers.set w ⟨position, after, .idle⟩
                 consumed := s.consumed ++ [s.pending] }

theorem execMoved [CommRing K] [Add T] {t : Training E S Q R K π T O} {s u : Shared E S R π T O} {e : Event π T}
    (taken : t.exec s e = some u) : Moved s e u := by
  cases e with
  | compute w localActor =>
    simp only [Training.exec] at taken
    split at taken
    · rename_i idle
      split at taken
      · obtain ⟨returns, -, rfl⟩ := Option.map_eq_some_iff.mp taken
        exact .compute _ _ idle
      · contradiction
    · contradiction
  | applyGradients w =>
    simp only [Training.exec] at taken
    split at taken
    · rename_i computed
      cases taken
      exact .applyGradients computed
    · contradiction
  | optStep w =>
    simp only [Training.exec] at taken
    split at taken
    · rename_i applied
      cases taken
      exact .optStep _ _ applied
    · contradiction

/-! ### What the account is worth -/

theorem noneBusy {workers : List (A3CWorker E S R π T O)} (idle : ∀ worker ∈ workers, worker.phase = .idle) :
    workers.countP (·.phase.busy) = 0 := by
  rw [List.countP_eq_zero]
  intro worker inside
  simp [idle worker inside]

theorem busySet {workers : List (A3CWorker E S R π T O)} {w : Nat} {worker : A3CWorker E S R π T O}
    (old : workers[w]? = some worker) (new : A3CWorker E S R π T O) :
    (workers.set w new).countP (·.phase.busy) + worker.phase.busy.toNat =
      workers.countP (·.phase.busy) + new.phase.busy.toNat := by
  obtain ⟨inside, found⟩ := List.getElem?_eq_some_iff.mp old
  rw [List.countP_set inside, found]
  have counted : worker.phase.busy = true → 0 < workers.countP (·.phase.busy) := fun busy =>
    List.countP_pos_iff.mpr ⟨worker, List.mem_of_getElem? old, busy⟩
  cases before : worker.phase.busy with
  | false => cases new.phase.busy <;> simp
  | true =>
    have := counted before
    cases new.phase.busy <;> simp <;> omega

/-- `sums` is what an optimizer step reads. -/
structure Tracked [AddCommMonoid T] (s : Shared E S R π T O) : Prop where
  count : s.computed.length = s.consumed.length + s.workers.countP (·.phase.busy)
  known : ∀ id ∈ s.pending, id < s.computed.length
  first : ∀ found ∈ s.consumed, found ≠ [] ∧ found.head? = s.pending.head?
  held : ∀ worker ∈ s.workers, ∀ (id : Nat) (grads : π → T), worker.phase = .computed id grads →
    s.computed[id]? = some grads
  added : ∀ worker ∈ s.workers, worker.phase = .applied → s.pending ≠ []
  sums : ∀ (param : π), s.grads param = if s.pending = [] then none
    else some ((s.pending.map fun id => s.computed.getD id (fun _ => 0) param).sum)

theorem trackedStart [AddCommMonoid T] {s : Shared E S R π T O} (start : Start s) : Tracked s := by
  refine ⟨?_, ?_, ?_, fun worker inside id grads phase => ?_, fun worker inside phase => ?_, fun param => ?_⟩
  · rw [noneBusy start.idle, start.computed, start.consumed]
    rfl
  · simp [start.pending]
  · simp [start.consumed]
  · rw [start.idle worker inside] at phase
    contradiction
  · rw [start.idle worker inside] at phase
    contradiction
  · rw [start.grads, if_pos start.pending]

theorem computeTracked [AddCommMonoid T] {s : Shared E S R π T O} (tracked : Tracked s) {w : Nat}
    {position : Position E S R} {opt : O} (idle : s.workers[w]? = some ⟨position, opt, .idle⟩)
    (next : Position E S R) (grads : π → T) :
    Tracked { s with workers := s.workers.set w ⟨next, opt, .computed s.computed.length grads⟩
                     computed := s.computed ++ [grads] } := by
  have busy := busySet idle ⟨next, opt, .computed s.computed.length grads⟩
  simp only [idleBusy, computedBusy, Bool.toNat_false, Bool.toNat_true] at busy
  have held : ∀ worker ∈ s.workers, ∀ (id : Nat) (other : π → T), worker.phase = .computed id other →
      (s.computed ++ [grads])[id]? = some other := fun worker inside id other phase => by
    have before := tracked.held worker inside id other phase
    rw [List.getElem?_append_left (List.getElem?_eq_some_iff.mp before).1, before]
  refine ⟨?_, fun id inside => ?_, tracked.first, everySet held w fun id other phase => ?_,
    everySet tracked.added w fun phase => ?_, fun param => ?_⟩
  · have count := tracked.count
    simp only [List.length_append, List.length_singleton]
    omega
  · rw [List.length_append]
    exact Nat.lt_add_right _ (tracked.known id inside)
  · cases phase
    simp
  · contradiction
  · rw [tracked.sums param]
    have same : ∀ id ∈ s.pending, s.computed.getD id (fun _ => 0) param =
        (s.computed ++ [grads]).getD id (fun _ => 0) param := fun id inside => by
      rw [List.getD_append _ _ _ _ (tracked.known id inside)]
    rw [List.map_congr_left same]

theorem applyTracked [AddCommMonoid T] {s : Shared E S R π T O} (tracked : Tracked s) {w : Nat}
    {position : Position E S R} {opt : O} {id : Nat} {grads : π → T}
    (computed : s.workers[w]? = some ⟨position, opt, .computed id grads⟩) :
    Tracked { s with grads := applyGradients s.grads grads
                     workers := s.workers.set w ⟨position, opt, .applied⟩
                     pending := s.pending ++ [id] } := by
  have busy := busySet computed ⟨position, opt, .applied⟩
  simp only [computedBusy, appliedBusy, Bool.toNat_true] at busy
  have held := tracked.held _ (List.mem_of_getElem? computed) id grads rfl
  refine ⟨?_, fun other inside => ?_, fun found inside => ?_, everySet tracked.held w fun other new phase => ?_,
    fun worker inside phase => by simp, fun param => ?_⟩
  · have count := tracked.count
    dsimp only
    omega
  · rcases List.mem_append.mp inside with before | new
    · exact tracked.known other before
    · rw [List.mem_singleton.mp new]
      exact (List.getElem?_eq_some_iff.mp held).1
  · obtain ⟨some_, first⟩ := tracked.first found inside
    refine ⟨some_, ?_⟩
    rw [List.head?_append, ← first]
    cases found with
    | nil => contradiction
    | cons => rfl
  · contradiction
  · have sums := tracked.sums param
    simp only [applyGradients, List.getD_eq_getElem?_getD] at sums ⊢
    rw [sums]
    by_cases empty : s.pending = [] <;> simp [empty, held]

theorem optTracked [AddCommMonoid T] {s : Shared E S R π T O} (tracked : Tracked s) {w : Nat}
    {position : Position E S R} {opt : O} (applied : s.workers[w]? = some ⟨position, opt, .applied⟩) (after : O)
    (params : π → T) :
    Tracked { s with params := params
                     workers := s.workers.set w ⟨position, after, .idle⟩
                     consumed := s.consumed ++ [s.pending] } := by
  have busy := busySet applied ⟨position, after, .idle⟩
  simp only [idleBusy, appliedBusy, Bool.toNat_false, Bool.toNat_true] at busy
  refine ⟨?_, tracked.known, fun found inside => ?_, everySet tracked.held w fun id grads phase => ?_,
    everySet tracked.added w fun phase => ?_, tracked.sums⟩
  · have count := tracked.count
    simp only [List.length_append, List.length_singleton]
    omega
  · rcases List.mem_append.mp inside with before | new
    · exact tracked.first found before
    · rw [List.mem_singleton.mp new]
      exact ⟨tracked.added _ (List.mem_of_getElem? applied) rfl, rfl⟩
  · contradiction
  · contradiction

theorem trackedMoved [AddCommMonoid T] {s u : Shared E S R π T O} {e : Event π T} (tracked : Tracked s)
    (moved : Moved s e u) : Tracked u := by
  cases moved with
  | compute next grads idle => exact computeTracked tracked idle next grads
  | applyGradients computed => exact applyTracked tracked computed
  | optStep after params applied => exact optTracked tracked applied after params

theorem onceExact [AddCommMonoid T] {s : Shared E S R π T O} (tracked : Tracked s)
    (idle : ∀ worker ∈ s.workers, worker.phase = .idle) : AppliedOnce s ↔ s.computed.length ≤ 1 := by
  have steps : s.computed.length = s.consumed.length := by rw [tracked.count, noneBusy idle, Nat.add_zero]
  -- the first gradient applied is found by every optimizer step
  have first : ∀ found ∈ s.consumed, ∃ id, id < s.computed.length ∧ ∀ found ∈ s.consumed, found.contains id = true := by
    intro found inside
    obtain ⟨some_, first⟩ := tracked.first found inside
    obtain ⟨id, rest, rfl⟩ := List.exists_cons_of_ne_nil some_
    refine ⟨id, tracked.known id (List.mem_of_mem_head? first.symm), fun other also => ?_⟩
    have again := (tracked.first other also).2
    rw [← first] at again
    simpa using List.mem_of_mem_head? again
  constructor
  · intro once
    by_contra several
    obtain ⟨found, inside⟩ := List.exists_mem_of_length_pos (show 0 < s.consumed.length by omega)
    obtain ⟨id, known, every⟩ := first found inside
    have all := List.countP_eq_length.mpr every
    have := once id known
    omega
  · intro few id known
    obtain ⟨found, inside⟩ := List.exists_mem_of_length_pos (show 0 < s.consumed.length by omega)
    obtain ⟨other, also, every⟩ := first found inside
    have all := List.countP_eq_length.mpr every
    rw [show id = other by omega, all]
    omega

theorem trackedRun [CommRing K] [AddCommMonoid T] {t : Training E S Q R K π T O} {s u : Shared E S R π T O}
    {es : List (Event π T)} (start : Start s) (run : Run (Does t.exec) s es u) :
    Tracked u ∧ u.computed.length = es.countP Event.computes := by
  have kept : ∀ (es : List (Event π T)) (s : Shared E S R π T O) (e : Event π T) (u : Shared E S R π T O),
      Tracked s ∧ s.computed.length = es.countP Event.computes → Does t.exec s e u →
        Tracked u ∧ u.computed.length = (es ++ [e]).countP Event.computes := fun es s e u held taken => by
    have moved := execMoved taken
    refine ⟨trackedMoved held.1 moved, ?_⟩
    rw [List.countP_append, ← held.2]
    cases moved <;> simp [Event.computes]
  exact runTrace kept run [] ⟨trackedStart start, by simp [start.computed]⟩

/-! ### An iteration of one worker -/

theorem applyTaken [CommRing K] [Add T] (t : Training E S Q R K π T O) {s : Shared E S R π T O} {w : Nat}
    {position : Position E S R} {opt : O} {id : Nat} {grads : π → T}
    (computed : s.workers[w]? = some ⟨position, opt, .computed id grads⟩) :
    Does t.exec s (.applyGradients w)
      { s with grads := applyGradients s.grads grads
               workers := s.workers.set w ⟨position, opt, .applied⟩
               pending := s.pending ++ [id] } := by
  simp only [Does, Training.exec, computed]

theorem optTaken [CommRing K] [Add T] (t : Training E S Q R K π T O) {s : Shared E S R π T O} {w : Nat}
    {position : Position E S R} {opt : O} (applied : s.workers[w]? = some ⟨position, opt, .applied⟩) :
    Does t.exec s (.optStep w)
      { s with params := (t.adamStep opt s.params s.grads).2
               workers := s.workers.set w ⟨position, (t.adamStep opt s.params s.grads).1, .idle⟩
               consumed := s.consumed ++ [s.pending] } := by
  simp only [Does, Training.exec, applied]

theorem iteration [CommRing K] [AddCommMonoid T] (t : Training E S Q R K π T O) {s : Shared E S R π T O} {w : Nat}
    (localActor : π → T) {position : Position E S R} {opt : O} (idle : s.workers[w]? = some ⟨position, opt, .idle⟩)
    (more : position.totalSteps < t.totalSteps) : ∃ (u : Shared E S R π T O) (next : Position E S R) (after : O),
      Run (Does t.exec) s [.compute w localActor, .applyGradients w, .optStep w] u ∧
        u.workers = s.workers.set w ⟨next, after, .idle⟩ ∧ next.totalSteps ≤ position.totalSteps + nStep := by
  obtain ⟨inside, -⟩ := List.getElem?_eq_some_iff.mp idle
  obtain ⟨returns, given⟩ := segmentReturns (t.actor localActor) position (t.actor localActor).gamma
  have steps := collectSteps (t.actor localActor) nStep position ⟨[], [], [], [], false⟩
  rw [← Worker.segment] at steps
  generalize ran : (t.actor localActor).segment position = run at given steps
  obtain ⟨next, seg⟩ := run
  have compute : t.exec s (.compute w localActor) =
      some { s with workers := s.workers.set w ⟨next, opt, .computed s.computed.length (t.backward localActor seg returns)⟩
                    computed := s.computed ++ [t.backward localActor seg returns] } := by
    simp only [Training.exec, idle, if_pos more, ran, given, Option.map_some]
  have applied := applyTaken t (s := { s with
      workers := s.workers.set w ⟨next, opt, .computed s.computed.length (t.backward localActor seg returns)⟩
      computed := s.computed ++ [t.backward localActor seg returns] }) (List.getElem?_set_self inside)
  have run : Run (Does t.exec) s [.compute w localActor, .applyGradients w, .optStep w] _ :=
    .cons compute (.cons applied (.cons (optTaken t (List.getElem?_set_self (by simpa using inside))) (.nil _)))
  let after := (t.adamStep opt s.params (applyGradients s.grads (t.backward localActor seg returns))).1
  exact ⟨_, next, after, run, by simp only [List.set_set, after], steps⟩

theorem appliedOnceExact [CommRing K] [AddCommMonoid T] (t : Training E S Q R K π T O) {s u : Shared E S R π T O}
    {es : List (Event π T)} (start : Start s) (run : Run (Does t.exec) s es u)
    (idle : ∀ worker ∈ u.workers, worker.phase = .idle) :
    AppliedOnce u ↔ es.countP Event.computes ≤ 1 := by
  obtain ⟨tracked, length⟩ := trackedRun start run
  rw [onceExact tracked idle, length]

end Model

/-! ### One worker -/

/-- One weight, with which the critic multiplies the limit it reads off the state. -/
def weighing (sin : ℚ → ℚ) : Training RateLimitEnv (List ℚ) Unit Unit ℚ Unit ℚ Unit where
  actor weight :=
    { env := rateLimitEnv sin
      forward := fun state => ((), weight () * state.getLastD 0)
      sample := fun _ _ => (0, ())
      gamma := 99 / 100 }
  totalSteps := 100000
  backward weight seg returns _ := ((seg.states.zip returns).map fun (state, ret) =>
    (weight () * state.getLastD 0 - ret) * state.getLastD 0).sum
  adamStep _ weight grads := ((), fun param => weight param - (grads param).getD 0 / 1000)

def alone (sin : ℚ → ℚ) : Shared RateLimitEnv (List ℚ) Unit Unit ℚ Unit :=
  ⟨fun _ => 1, fun _ => none, [⟨atStart sin, (), .idle⟩], [], [], []⟩

theorem aloneStart (sin : ℚ → ℚ) : Start (alone sin) := ⟨rfl, by simp [alone], rfl, rfl, rfl⟩

theorem appliedOnceFirst : ∃ u : Shared RateLimitEnv (List ℚ) Unit Unit ℚ Unit,
    Run (Does (weighing nearSin).exec) (alone nearSin)
      [.compute 0 fun _ => 1, .applyGradients 0, .optStep 0] u ∧ AppliedOnce u := by
  obtain ⟨u, position, opt, run, workers, -⟩ :=
    iteration (weighing nearSin) (s := alone nearSin) (w := 0) (alone nearSin).params rfl (by decide)
  refine ⟨u, run, ?_⟩
  rw [appliedOnceExact (weighing nearSin) (aloneStart nearSin) run (by simp [workers, alone])]
  decide

theorem staleGradient : ∃ (es : List (Event Unit ℚ)) (u : Shared RateLimitEnv (List ℚ) Unit Unit ℚ Unit),
    Run (Does (weighing nearSin).exec) (alone nearSin) es u ∧ (∀ worker ∈ u.workers, worker.phase = .idle) ∧
      ¬ AppliedOnce u := by
  obtain ⟨s, position, opt, first, workers, few⟩ :=
    iteration (weighing nearSin) (s := alone nearSin) (w := 0) (alone nearSin).params rfl (by decide)
  obtain ⟨u, next, after, second, idle, -⟩ :=
    iteration (weighing nearSin) (w := 0) s.params (by rw [workers]; rfl) (few.trans_lt (by decide))
  rw [workers] at idle
  have run := runAppend first second
  have settled : ∀ worker ∈ u.workers, worker.phase = .idle := by simp [idle, alone]
  obtain ⟨tracked, length⟩ := trackedRun (aloneStart nearSin) run
  refine ⟨_, u, run, settled, ?_⟩
  rw [onceExact tracked settled, length]
  show ¬ 2 ≤ 1
  decide

end OmegaLb.A3C
