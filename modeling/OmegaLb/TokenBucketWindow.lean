import OmegaLb.ProxyState
import OmegaLb.StepRun

/-! TokenBucket under a clock and a controller: what a bucket hands out in a window, against what
it held at the start and the integral of its rate. The time since the last consume is paid for at
the rate of the next one, so a bucket keeps to that as long as no rate is raised over open time. -/
namespace OmegaLb.OmegaProxy
open StepRun (Run Guarded Does doesSplit runAppend runFoldlM runGuarded runGuardedAny runInvariant runWeaken)

/-- `__init__`, at the clock `now`. -/
def TokenBucket.init {F : Type} (rate now : F) : TokenBucket F := ⟨rate, rate, now⟩

deriving instance DecidableEq for TokenBucket

inductive BucketEvent where
  | pass (time : ℚ)
  | consume
  | setRate (rate : ℚ)

/-- The bucket, the clock, the consumes that succeeded and the integral of the rate. -/
structure Meter where
  bucket : TokenBucket ℚ
  now : ℚ
  granted : Nat
  supplied : ℚ
  deriving DecidableEq

def Meter.exec (m : Meter) : BucketEvent → Option Meter
  | .pass time =>
    if 0 ≤ time then some { m with now := m.now + time, supplied := m.supplied + m.bucket.rate * time } else none
  | .consume =>
    let (bucket, ok) := m.bucket.consume m.now
    some { m with bucket := bucket, granted := m.granted + if ok then 1 else 0 }
  | .setRate rate => some { m with bucket := m.bucket.setRate rate }

def Meter.init (rate now : ℚ) : Meter := ⟨.init rate now, now, 0, 0⟩

/-- The tokens that a consume would find: at most those of one second. -/
def Meter.balance (m : Meter) : ℚ :=
  min m.bucket.rate (m.bucket.tokens + m.bucket.rate * (m.now - m.bucket.last))

/-! ### What is promised -/

structure WindowBound (s : Meter) (events : List BucketEvent) : Prop where
  windows : ∀ before window after u v, events = before ++ (window ++ after) → Run (Does Meter.exec) s before u →
    Run (Does Meter.exec) u window v → (v.granted : ℚ) ≤ u.granted + (u.balance + (v.supplied - u.supplied))
  changes : ∀ before rate after u v, events = before ++ .setRate rate :: after →
    Run (Does Meter.exec) s before u → Does Meter.exec u (.setRate rate) v → v.balance ≤ u.balance

/-- A rate is raised only where no time is open and the bucket is not over its second. -/
def Settled (m : Meter) : BucketEvent → Prop
  | .setRate rate => max rate 10 ≤ m.bucket.rate ∨ m.bucket.last = m.now ∧ m.bucket.tokens ≤ m.bucket.rate
  | _ => True

instance (m : Meter) (e : BucketEvent) : Decidable (Settled m e) := by
  unfold Settled
  split <;> infer_instance

/-! ### One step -/

theorem consumeTokens (b : TokenBucket ℚ) (now : ℚ) :
    b.consume now =
      let tokens := min b.rate (b.tokens + b.rate * (now - b.last))
      if 1 ≤ tokens then (⟨b.rate, tokens - 1, now⟩, true) else (⟨b.rate, tokens, now⟩, false) := by
  have least : (if b.tokens + b.rate * (now - b.last) < b.rate then b.tokens + b.rate * (now - b.last) else b.rate) =
      min b.rate (b.tokens + b.rate * (now - b.last)) := by
    rw [min_comm, min_def_lt]
  simp only [TokenBucket.consume, ratGt, ratLe, ratLit, decide_eq_true_eq, least]

theorem setRateFloor (b : TokenBucket ℚ) (rate : ℚ) : b.setRate rate = { b with rate := max rate 10 } := by
  simp only [TokenBucket.setRate, ratGt, ratLit, decide_eq_true_eq]
  rw [max_comm, max_def_lt]

def Meter.grant (m : Meter) : Nat := if 1 ≤ m.balance then 1 else 0

theorem execConsume (m : Meter) :
    m.exec .consume = some { m with
      bucket := ⟨m.bucket.rate, m.balance - m.grant, m.now⟩, granted := m.granted + m.grant } := by
  have held : min m.bucket.rate (m.bucket.tokens + m.bucket.rate * (m.now - m.bucket.last)) = m.balance := rfl
  simp only [Meter.exec, consumeTokens, held, Meter.grant]
  by_cases enough : 1 ≤ m.balance
  · simp [enough]
  · simp [enough]

theorem execPass {m m' : Meter} {time : ℚ} (taken : m.exec (.pass time) = some m') : 0 ≤ time ∧
    m' = { m with now := m.now + time, supplied := m.supplied + m.bucket.rate * time } := by
  simp only [Meter.exec] at taken
  split at taken
  · exact ⟨by assumption, (Option.some.inj taken).symm⟩
  · contradiction

theorem execSetRate (m : Meter) (rate : ℚ) :
    m.exec (.setRate rate) = some { m with bucket := { m.bucket with rate := max rate 10 } } := by
  rw [Meter.exec, setRateFloor]

structure Funded (m : Meter) : Prop where
  rate : 0 ≤ m.bucket.rate
  tokens : 0 ≤ m.bucket.tokens
  clock : m.bucket.last ≤ m.now

theorem fundedBalance {m : Meter} (funded : Funded m) : 0 ≤ m.balance := by
  have elapsed := mul_nonneg funded.rate (sub_nonneg.mpr funded.clock)
  exact le_min funded.rate (add_nonneg funded.tokens elapsed)

theorem grantHeld {m : Meter} (funded : Funded m) : (m.grant : ℚ) ≤ m.balance := by
  unfold Meter.grant
  split
  · rename_i enough
    exact_mod_cast enough
  · exact_mod_cast fundedBalance funded

theorem execFunded {m m' : Meter} {e : BucketEvent} (funded : Funded m) (taken : Does Meter.exec m e m') :
    Funded m' := by
  cases e with
  | pass time =>
    obtain ⟨forward, rfl⟩ := execPass taken
    exact ⟨funded.rate, funded.tokens, le_trans funded.clock (le_add_of_nonneg_right forward)⟩
  | consume =>
    cases (execConsume m).symm.trans taken
    exact ⟨funded.rate, sub_nonneg.mpr (grantHeld funded), le_refl _⟩
  | setRate rate =>
    cases (execSetRate m rate).symm.trans taken
    exact ⟨le_trans (by norm_num) (le_max_right rate 10), funded.tokens, funded.clock⟩

theorem balanceClosed {m : Meter} (closed : m.bucket.last = m.now) (within : m.bucket.tokens ≤ m.bucket.rate) :
    m.balance = m.bucket.tokens := by
  rw [Meter.balance, closed, sub_self, mul_zero, add_zero, min_eq_right within]

theorem passEarns (m : Meter) {time : ℚ} (earned : 0 ≤ m.bucket.rate * time) (supplied : ℚ) :
    Meter.balance { m with now := m.now + time, supplied := supplied } ≤ m.balance + m.bucket.rate * time := by
  have later : m.bucket.tokens + m.bucket.rate * (m.now + time - m.bucket.last) =
      m.bucket.tokens + m.bucket.rate * (m.now - m.bucket.last) + m.bucket.rate * time := by ring
  simp only [Meter.balance]
  rw [later, ← min_add_add_right]
  exact min_le_min_right _ (le_add_of_nonneg_right earned)

/-- A change of the rate raises the balance unless the change is settled, and never otherwise. -/
theorem setRateRaises {m : Meter} (funded : Funded m) (rate : ℚ) :
    Meter.balance { m with bucket := { m.bucket with rate := max rate 10 } } ≤ m.balance ↔
      Settled m (.setRate rate) := by
  have elapsed := sub_nonneg.mpr funded.clock
  simp only [Meter.balance, Settled]
  generalize max rate 10 = new
  constructor
  · intro kept
    by_contra open_
    obtain ⟨raised, unsettled⟩ := not_or.mp open_
    have higher := not_le.mp raised
    rcases elapsed.eq_or_lt with none_ | some_
    · have closed : m.bucket.last = m.now := by linarith
      have beyond : m.bucket.rate < m.bucket.tokens := not_le.mp fun within => unsettled ⟨closed, within⟩
      rw [← none_, mul_zero, mul_zero, add_zero, min_eq_left beyond.le] at kept
      exact absurd kept (not_le.mpr (lt_min higher beyond))
    · have faster := mul_lt_mul_of_pos_right higher some_
      exact absurd kept (not_le.mpr (min_lt_min higher (by linarith)))
  · rintro (lower | ⟨closed, within⟩)
    · have slower := mul_le_mul_of_nonneg_right lower elapsed
      exact min_le_min lower (by linarith)
    · rw [closed, sub_self, mul_zero, mul_zero, add_zero, min_eq_right within]
      exact min_le_right _ _

/-- The balance pays for what is handed out, and only the clock adds to it. -/
theorem execPays {m m' : Meter} {e : BucketEvent} (funded : Funded m) (settled : Settled m e)
    (taken : Does Meter.exec m e m') :
    m'.balance + m'.granted ≤ m.balance + m.granted + (m'.supplied - m.supplied) := by
  cases e with
  | pass time =>
    obtain ⟨forward, rfl⟩ := execPass taken
    have earns := passEarns m (mul_nonneg funded.rate forward) (m.supplied + m.bucket.rate * time)
    simp only
    linarith
  | consume =>
    cases (execConsume m).symm.trans taken
    have capped : m.balance - m.grant ≤ m.bucket.rate := by
      have most : m.balance ≤ m.bucket.rate := min_le_left _ _
      have grant : (0 : ℚ) ≤ m.grant := Nat.cast_nonneg _
      linarith
    rw [balanceClosed rfl capped]
    simp only
    push_cast
    linarith
  | setRate rate =>
    cases (execSetRate m rate).symm.trans taken
    have kept := (setRateRaises funded rate).mpr settled
    simp only
    linarith

/-! ### A run -/

theorem windowPays {u v : Meter} {window : List BucketEvent} (funded : Funded u)
    (run : Run (Guarded Settled (Does Meter.exec)) u window v) :
    v.balance + v.granted ≤ u.balance + u.granted + (v.supplied - u.supplied) := by
  induction run with
  | nil s => linarith
  | cons head _ ih =>
    have first := execPays funded head.1 head.2
    have rest := ih (execFunded funded head.2)
    linarith

theorem changesSettled {s t : Meter} {events : List BucketEvent} (funded : Funded s)
    (changes : ∀ before rate after u v, events = before ++ .setRate rate :: after →
      Run (Does Meter.exec) s before u → Does Meter.exec u (.setRate rate) v → v.balance ≤ u.balance)
    (run : Run (Does Meter.exec) s events t) : Run (Guarded Settled (Does Meter.exec)) s events t := by
  induction run with
  | nil s => exact .nil s
  | @cons s e u es t head tail ih =>
    have settled : Settled s e := by
      cases e with
      | pass time => trivial
      | consume => trivial
      | setRate rate =>
        have kept := changes [] rate es s u rfl (.nil s) head
        cases (execSetRate s rate).symm.trans head
        exact (setRateRaises funded rate).mp kept
    refine .cons ⟨settled, head⟩ (ih (execFunded funded head) fun before rate after u' v same first => ?_)
    exact changes (e :: before) rate after u' v (by rw [same, List.cons_append]) (.cons head first)

theorem settledBound {s t : Meter} {events : List BucketEvent} (funded : Funded s)
    (run : Run (Guarded Settled (Does Meter.exec)) s events t) : WindowBound s events where
  windows := by
    rintro before window after u v rfl first second
    have reached := runInvariant (fun _ _ _ held taken => execFunded held taken) first funded
    have inside := (doesSplit (doesSplit run first).2 second).1
    have pays := windowPays reached inside
    have held := fundedBalance (runInvariant (fun _ _ _ held taken => execFunded held taken) second reached)
    linarith
  changes := by
    rintro before rate after u v rfl first taken
    have reached := runInvariant (fun _ _ _ held taken => execFunded held taken) first funded
    cases (doesSplit run first).2 with
    | cons head _ =>
      cases (execSetRate u rate).symm.trans taken
      exact (setRateRaises reached rate).mpr head.1

theorem freshBalance (rate now : ℚ) : (Meter.init rate now).balance = rate :=
  balanceClosed rfl (le_refl rate)

theorem bucketBound (rate now : ℚ) {events : List BucketEvent} {t : Meter}
    (run : Run (Does Meter.exec) (Meter.init rate now) events t) :
    WindowBound (Meter.init rate now) events ↔
      0 ≤ rate ∧ Run (Guarded Settled (Does Meter.exec)) (Meter.init rate now) events t := by
  constructor
  · intro bound
    have empty := bound.windows [] [] events _ _ rfl (.nil _) (.nil _)
    rw [freshBalance] at empty
    have nonneg : 0 ≤ rate := by linarith
    exact ⟨nonneg, changesSettled ⟨nonneg, nonneg, le_refl _⟩ bound.changes run⟩
  · rintro ⟨nonneg, guarded⟩
    exact settledBound ⟨nonneg, nonneg, le_refl _⟩ guarded

def steady : List BucketEvent := [.consume, .setRate 15, .pass (1 / 10), .consume, .setRate 30, .pass 1, .consume]

theorem bucketBoundSteady : ∃ t, Run (Does Meter.exec) (Meter.init 20 0) steady t ∧ t.granted = 3 ∧
    WindowBound (Meter.init 20 0) steady := by
  have done : (runGuarded Settled Meter.exec (Meter.init 20 0) steady).any (fun t => decide (t.granted = 3)) = true := by
    decide +kernel
  obtain ⟨t, guarded, three⟩ := runGuardedAny done
  have run := runWeaken (fun _ _ _ taken => taken.2) guarded
  exact ⟨t, run, of_decide_eq_true three, (bucketBound 20 0 run).mpr ⟨by norm_num, guarded⟩⟩

/-- A second's token is gone at once; a tenth of a second later the rate goes from 1 to 10, and the
consume after it finds a whole token. -/
theorem raisedRateEarns : ¬ ∀ (rate now : ℚ) (events : List BucketEvent) (t : Meter),
    Run (Does Meter.exec) (Meter.init rate now) events t → WindowBound (Meter.init rate now) events := by
  intro bound
  have first : Run (Does Meter.exec) (Meter.init 1 0) [.consume] ⟨⟨1, 0, 0⟩, 0, 1, 0⟩ :=
    runFoldlM (by decide +kernel)
  have window : Run (Does Meter.exec) ⟨⟨1, 0, 0⟩, 0, 1, 0⟩ [.pass (1 / 10), .setRate 10, .consume]
      ⟨⟨10, 0, 1 / 10⟩, 1 / 10, 2, 1 / 10⟩ := runFoldlM (by decide +kernel)
  have most := (bound 1 0 _ _ (runAppend first window)).windows [.consume] _ [] _ _ rfl first window
  have drained : Meter.balance ⟨⟨1, 0, 0⟩, 0, 1, 0⟩ = 0 := by decide +kernel
  rw [drained] at most
  norm_num at most

end OmegaLb.OmegaProxy
