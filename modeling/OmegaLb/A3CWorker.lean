import OmegaLb.Discounting
import Mathlib.Algebra.BigOperators.Intervals
import Mathlib.Algebra.Order.Field.Rat
import Mathlib.Data.List.GetD
import Mathlib.Tactic.Linarith
import Mathlib.Tactic.Ring

/-! The segments that A3CWorker.run collects and the returns it computes from them, over exact numbers.
The local networks are what they answer to a state between two syncs; float32 does not round. The
last value of a segment is that of the state before the last action, not of the state it led to. -/
namespace OmegaLb.A3C
open Discounting (discounted horner hornerSum)

structure Env (E S K : Type) where
  reset : E → E × S
  step : E → Int → E × S × K × Bool

/-- `forward` is the local actor, `sample` what Categorical draws from its probabilities. -/
structure Worker (E S P R K : Type) where
  env : Env E S K
  forward : S → P × K
  sample : P → R → Int × R
  gamma : K

structure Position (E S R : Type) where
  env : E
  state : S
  rng : R
  totalSteps : Nat

structure Segment (S K : Type) where
  states : List S
  actions : List Int
  rewards : List K
  values : List K
  done : Bool

section Model
variable {E S P R K : Type}

def Worker.value (w : Worker E S P R K) (state : S) : K := (w.forward state).2

/-- The rounds of the collection loop that are left. -/
def Worker.collect (w : Worker E S P R K) :
    Nat → Position E S R → Segment S K → Position E S R × Segment S K
  | 0, p, seg => (p, seg)
  | left + 1, p, seg =>
    let (probs, value) := w.forward p.state
    let (action, rng) := w.sample probs p.rng
    let (env, nextState, reward, done) := w.env.step p.env action
    let seg := { states := seg.states ++ [p.state]
                 actions := seg.actions ++ [action]
                 rewards := seg.rewards ++ [reward]
                 values := seg.values ++ [value]
                 done := done }
    if done then
      let (env, state) := w.env.reset env
      (⟨env, state, rng, p.totalSteps + 1⟩, seg)
    else w.collect left ⟨env, nextState, rng, p.totalSteps + 1⟩ seg

def nStep : Nat := 20

def Worker.segment (w : Worker E S P R K) (p : Position E S R) : Position E S R × Segment S K :=
  w.collect nStep p ⟨[], [], [], [], false⟩

variable [CommRing K]

/-- The backward loop: the return so far and the list it is put in front of. -/
def accumulate (gamma : K) (acc : K × List K) (r : K) : K × List K :=
  let R := r + gamma * acc.1
  (R, R :: acc.2)

/-- `values[-1]` of an empty list is an IndexError. -/
def Segment.returns (seg : Segment S K) (gamma : K) : Option (List K) :=
  let R := if seg.done then some 0 else seg.values.getLast?
  R.map fun R => (seg.rewards.reverse.foldl (accumulate gamma) (R, [])).2

end Model

/-! ### The simulated environment -/

structure RateLimitEnv where
  currentLimit : ℚ
  minRps : ℚ
  maxRps : ℚ
  stepN : Nat

def RateLimitEnv.init : RateLimitEnv := ⟨1000, 100, 10000, 0⟩

def RateLimitEnv.trueRps (sin : ℚ → ℚ) (e : RateLimitEnv) : ℚ := 800 + 400 * sin ((e.stepN : ℚ) / 200)

def RateLimitEnv.cpuPct (sin : ℚ → ℚ) (e : RateLimitEnv) : ℚ := min 1 (e.trueRps sin / (e.currentLimit + 1))

def RateLimitEnv.observe (sin : ℚ → ℚ) (e : RateLimitEnv) : List ℚ :=
  [e.trueRps sin / 10000, e.cpuPct sin, 0, max 0 (e.cpuPct sin - 85 / 100), e.cpuPct sin * 200, e.currentLimit / 10000]

def RateLimitEnv.reset (sin : ℚ → ℚ) (e : RateLimitEnv) : RateLimitEnv × List ℚ :=
  let e := { e with currentLimit := 1000, stepN := 0 }
  (e, e.observe sin)

def RateLimitEnv.act (e : RateLimitEnv) (action : Int) : RateLimitEnv :=
  if action = 0 then { e with currentLimit := max e.minRps (e.currentLimit * (90 / 100)) }
  else if action = 2 then { e with currentLimit := min e.maxRps (e.currentLimit * (110 / 100)) }
  else e

def RateLimitEnv.step (sin : ℚ → ℚ) (e : RateLimitEnv) (action : Int) : RateLimitEnv × List ℚ × ℚ × Bool :=
  let e := e.act action
  let errorR := max 0 (e.cpuPct sin - 85 / 100) * 2
  let reward := min e.currentLimit (e.trueRps sin) / 100 - errorR * 100 - max 0 (e.cpuPct sin - 90 / 100) * 10 ^ 9
  let e := { e with stepN := e.stepN + 1 }
  (e, e.observe sin, reward, decide (1000 ≤ e.stepN))

def rateLimitEnv (sin : ℚ → ℚ) : Env RateLimitEnv (List ℚ) ℚ := ⟨RateLimitEnv.reset sin, RateLimitEnv.step sin⟩

/-! ### What is promised -/

section Returns
variable {E S P R K : Type} [Field K]

/-- The return of step `t` when what comes after the segment is worth `beyond`. -/
def Segment.nStepReturn (seg : Segment S K) (gamma beyond : K) (t : Nat) : K :=
  ∑ k ∈ Finset.Ico t seg.rewards.length, gamma ^ (k - t) * seg.rewards.getD k 0 +
    gamma ^ (seg.rewards.length - t) * beyond

/-- The returns of a segment that ended in `state`, unless the episode did. -/
structure Bootstrapped (w : Worker E S P R K) (state : S) (seg : Segment S K) (returns : List K) : Prop where
  length : returns.length = seg.rewards.length
  each : ∀ t, t < seg.rewards.length →
    returns[t]? = some (seg.nStepReturn w.gamma (if seg.done then 0 else w.value state) t)

/-! ### A segment -/

structure Collected (w : Worker E S P R K) (seg : Segment S K) : Prop where
  length : seg.states.length = seg.rewards.length
  values : seg.values = seg.states.map w.value

omit [Field K] in
theorem collectCollected {w : Worker E S P R K} {seg : Segment S K} (collected : Collected w seg) (left : Nat)
    (p : Position E S R) : Collected w (w.collect left p seg).2 := by
  induction left generalizing p seg with
  | zero => exact collected
  | succ left ih =>
    rw [Worker.collect]
    dsimp only
    have more : ∀ (done : Bool), Collected w ⟨seg.states ++ [p.state],
        seg.actions ++ [(w.sample (w.forward p.state).1 p.rng).1],
        seg.rewards ++ [(w.env.step p.env (w.sample (w.forward p.state).1 p.rng).1).2.2.1],
        seg.values ++ [(w.forward p.state).2], done⟩ := fun done => by
      refine ⟨by simp [collected.length], ?_⟩
      rw [collected.values, List.map_append]
      rfl
    split
    · exact more _
    · exact ih (more _) _

omit [Field K] in
theorem collectSome (w : Worker E S P R K) (left : Nat) (p : Position E S R) {seg : Segment S K}
    (some_ : seg.rewards ≠ [] ∨ 0 < left) : (w.collect left p seg).2.rewards ≠ [] := by
  induction left generalizing p seg with
  | zero => exact some_.resolve_right (Nat.lt_irrefl 0)
  | succ left ih =>
    rw [Worker.collect]
    dsimp only
    split
    · simp
    · exact ih _ (.inl (by simp))

omit [Field K] in
theorem collectSteps (w : Worker E S P R K) (left : Nat) (p : Position E S R) (seg : Segment S K) :
    (w.collect left p seg).1.totalSteps ≤ p.totalSteps + left := by
  induction left generalizing p seg with
  | zero => exact Nat.le_refl _
  | succ left ih =>
    rw [Worker.collect]
    dsimp only
    split
    · dsimp only
      omega
    · refine (ih _ _).trans ?_
      dsimp only
      omega

omit [Field K] in
theorem segmentReturns [CommRing K] (w : Worker E S P R K) (p : Position E S R) (gamma : K) :
    ∃ returns, (w.segment p).2.returns gamma = some returns := by
  have collected : Collected w (w.segment p).2 := collectCollected ⟨rfl, rfl⟩ nStep p
  have some_ : (w.segment p).2.rewards ≠ [] := collectSome w nStep p (.inr (by decide))
  have valued : (w.segment p).2.values ≠ [] := by
    rw [collected.values, ← List.length_pos_iff, List.length_map, collected.length]
    exact List.length_pos_iff.mpr some_
  rw [Segment.returns, List.getLast?_eq_some_getLast valued]
  split <;> exact ⟨_, rfl⟩

omit [Field K] in
theorem collectGoing {w : Worker E S P R K} {p : Position E S R} (left : Nat) (seg : Segment S K) {env : E}
    {next : S} {reward : K}
    (step : w.env.step p.env (w.sample (w.forward p.state).1 p.rng).1 = (env, next, reward, false)) :
    w.collect (left + 1) p seg =
      w.collect left ⟨env, next, (w.sample (w.forward p.state).1 p.rng).2, p.totalSteps + 1⟩
        ⟨seg.states ++ [p.state], seg.actions ++ [(w.sample (w.forward p.state).1 p.rng).1],
          seg.rewards ++ [reward], seg.values ++ [w.value p.state], false⟩ := by
  rw [Worker.collect]
  simp only [step]
  rfl

omit [Field K] in
theorem accumulateHorner [CommRing K] (gamma R : K) (rewards : List K) :
    rewards.foldr (fun r acc => accumulate gamma acc r) (R, []) =
      (horner gamma R rewards, (List.range rewards.length).map fun t => horner gamma R (rewards.drop t)) := by
  induction rewards with
  | nil => rfl
  | cons r rest ih =>
    rw [List.foldr_cons, ih, List.length_cons, List.range_succ_eq_map, List.map_cons, List.map_map]
    rfl

theorem hornerReturn (seg : Segment S K) (gamma beyond : K) (t : Nat) :
    horner gamma beyond (seg.rewards.drop t) = seg.nStepReturn gamma beyond t := by
  rw [hornerSum, Segment.nStepReturn, Finset.sum_Ico_eq_sum_range, List.length_drop]
  refine congrArg (· + gamma ^ (seg.rewards.length - t) * beyond) (Finset.sum_congr rfl fun k _ => ?_)
  dsimp only
  rw [List.getD_eq_getElem?_getD, List.getElem?_drop, ← List.getD_eq_getElem?_getD, Nat.add_sub_cancel_left]

theorem returnsFrom {seg : Segment S K} {gamma beyond : K}
    (bootstrap : (if seg.done then some 0 else seg.values.getLast?) = some beyond) :
    seg.returns gamma = some ((List.range seg.rewards.length).map (seg.nStepReturn gamma beyond)) := by
  rw [Segment.returns, bootstrap, Option.map_some, List.foldl_reverse, accumulateHorner]
  simp only [hornerReturn]

/-- Another worth of what comes after shows in every return, least discounted in the last. -/
theorem returnsAgree {seg : Segment S K} (some_ : seg.rewards ≠ []) (gamma beyond other : K) :
    (∀ t, t < seg.rewards.length → seg.nStepReturn gamma beyond t = seg.nStepReturn gamma other t) ↔
      gamma = 0 ∨ beyond = other := by
  have length := List.length_pos_iff.mpr some_
  constructor
  · intro same
    have last := add_left_cancel (same (seg.rewards.length - 1) (by omega))
    rw [show seg.rewards.length - (seg.rewards.length - 1) = 1 by omega, pow_one] at last
    exact (mul_eq_mul_left_iff.mp last).symm
  · rintro (zero | same) t inside
    · rw [Segment.nStepReturn, Segment.nStepReturn, zero, zero_pow (by omega), zero_mul, zero_mul]
    · rw [same]

theorem returnsUnfinished {w : Worker E S P R K} {seg : Segment S K} (collected : Collected w seg)
    (some_ : seg.rewards ≠ []) (going : seg.done = false) {last : S} (ends : seg.states.getLast? = some last)
    (state : S) : (∃ returns, seg.returns w.gamma = some returns ∧ Bootstrapped w state seg returns) ↔
      w.gamma = 0 ∨ w.value last = w.value state := by
  have bootstrap : (if seg.done then some 0 else seg.values.getLast?) = some (w.value last) := by
    rw [going, if_neg Bool.false_ne_true, collected.values, List.getLast?_map, ends, Option.map_some]
  rw [returnsFrom bootstrap, ← returnsAgree some_ w.gamma (w.value last) (w.value state)]
  constructor
  · rintro ⟨returns, given, exact_⟩ t inside
    have each := exact_.each t inside
    rw [← Option.some.inj given, going] at each
    simpa [inside] using each
  · intro same
    refine ⟨_, rfl, by simp, fun t inside => ?_⟩
    rw [going]
    simpa [inside] using same t inside

theorem nStepReturnsExact (w : Worker E S P R K) (p : Position E S R) :
    (∃ returns, (w.segment p).2.returns w.gamma = some returns ∧
      Bootstrapped w (w.segment p).1.state (w.segment p).2 returns) ↔
    (w.segment p).2.done = true ∨ w.gamma = 0 ∨
      ∀ last, (w.segment p).2.states.getLast? = some last → w.value last = w.value (w.segment p).1.state := by
  have collected : Collected w (w.segment p).2 := collectCollected ⟨rfl, rfl⟩ nStep p
  have some_ : (w.segment p).2.rewards ≠ [] := collectSome w nStep p (.inr (by decide))
  generalize w.segment p = run at collected some_ ⊢
  obtain ⟨⟨env, state, rng, totalSteps⟩, seg⟩ := run
  dsimp only at collected some_ ⊢
  cases done : seg.done with
  | true =>
    have zero : (if seg.done then some 0 else seg.values.getLast?) = some (0 : K) := by rw [done]; rfl
    refine iff_of_true ⟨_, returnsFrom zero, by simp, fun t inside => ?_⟩ (.inl rfl)
    simp [done, inside]
  | false =>
    obtain ⟨last, ends⟩ : ∃ last, seg.states.getLast? = some last := by
      refine ⟨seg.states.getLast ?_, List.getLast?_eq_some_getLast _⟩
      rw [← List.length_pos_iff, collected.length]
      exact List.length_pos_iff.mpr some_
    rw [returnsUnfinished collected some_ done ends, ends]
    simp

end Returns

/-! ### An untrained critic and falling limits -/

/-- Every draw lowers the limit; the critic reads the limit off the state. -/
def lowering (sin : ℚ → ℚ) : Worker (RateLimitEnv) (List ℚ) Unit Unit ℚ where
  env := rateLimitEnv sin
  forward state := ((), state.getLastD 0)
  sample _ _ := (0, ())
  gamma := 99 / 100

def atStart (sin : ℚ → ℚ) : Position (RateLimitEnv) (List ℚ) Unit :=
  let (env, state) := (rateLimitEnv sin).reset .init
  ⟨env, state, (), 0⟩

/-- Lowered that often, from where an episode starts. -/
def lowered (sin : ℚ → ℚ) (often : Nat) : Position (RateLimitEnv) (List ℚ) Unit :=
  let env : RateLimitEnv := ⟨1000 * (90 / 100) ^ often, 100, 10000, often⟩
  ⟨env, env.observe sin, (), often⟩

theorem valueLowered (sin : ℚ → ℚ) (often : Nat) :
    (lowering sin).value (lowered sin often).state = 1000 * (90 / 100) ^ often / 10000 := rfl

theorem stepLowered (sin : ℚ → ℚ) {often : Nat} (few : often < 20) : ∃ reward,
    (rateLimitEnv sin).step (lowered sin often).env 0 =
      ((lowered sin (often + 1)).env, (lowered sin (often + 1)).state, reward, false) := by
  have above : (100 : ℚ) ≤ 1000 * (90 / 100) ^ (often + 1) := by
    have least : ((90 : ℚ) / 100) ^ 20 ≤ (90 / 100) ^ (often + 1) :=
      pow_le_pow_of_le_one (by norm_num) (by norm_num) (by omega)
    have start : (100 : ℚ) ≤ 1000 * (90 / 100) ^ 20 := by norm_num
    linarith
  have act : (lowered sin often).env.act 0 = ⟨1000 * (90 / 100) ^ (often + 1), 100, 10000, often⟩ := by
    simp only [RateLimitEnv.act, lowered, if_true]
    rw [mul_assoc, ← pow_succ, max_eq_right above]
  refine ⟨((rateLimitEnv sin).step (lowered sin often).env 0).2.2.1, ?_⟩
  simp only [rateLimitEnv, RateLimitEnv.step, act]
  rw [decide_eq_false (show ¬ 1000 ≤ often + 1 by omega)]
  rfl

theorem collectLowered (sin : ℚ → ℚ) (left : Nat) {often : Nat} (few : often + left < 20)
    (seg : Segment (List ℚ) ℚ) :
    let run := (lowering sin).collect (left + 1) (lowered sin often) seg
    run.1 = lowered sin (often + left + 1) ∧ run.2.done = false ∧
      run.2.states.getLast? = some (lowered sin (often + left)).state := by
  obtain ⟨reward, step⟩ := stepLowered sin (show often < 20 by omega)
  dsimp only
  rw [collectGoing (w := lowering sin) left seg step]
  cases left with
  | zero => exact ⟨rfl, rfl, by simp [Worker.collect]⟩
  | succ left =>
    have rest := collectLowered sin left (show often + 1 + left < 20 by omega)
    rw [show often + 1 + left = often + (left + 1) by omega] at rest
    exact rest _

/-- The sine of a small angle, to more digits than an observation keeps. -/
def nearSin (x : ℚ) : ℚ := x - x ^ 3 / 6 + x ^ 5 / 120

theorem staleBootstrap : ¬ ∃ returns,
    ((lowering nearSin).segment (atStart nearSin)).2.returns (lowering nearSin).gamma = some returns ∧
    Bootstrapped (lowering nearSin) ((lowering nearSin).segment (atStart nearSin)).1.state
      ((lowering nearSin).segment (atStart nearSin)).2 returns := by
  have start : atStart nearSin = lowered nearSin 0 := by
    simp [atStart, lowered, rateLimitEnv, RateLimitEnv.reset, RateLimitEnv.init]
  obtain ⟨reached, going, ends⟩ := collectLowered nearSin 19 (show 0 + 19 < 20 by decide) ⟨[], [], [], [], false⟩
  have collected : Collected (lowering nearSin) ((lowering nearSin).segment (atStart nearSin)).2 :=
    collectCollected ⟨rfl, rfl⟩ nStep _
  rw [← start] at reached going ends
  rw [returnsUnfinished collected (collectSome _ nStep _ (.inr (by decide))) going ends]
  rintro (zero | same)
  · norm_num [lowering] at zero
  · have reached : ((lowering nearSin).segment (atStart nearSin)).1 = lowered nearSin 20 := reached
    rw [reached, valueLowered, valueLowered] at same
    norm_num at same

end OmegaLb.A3C
