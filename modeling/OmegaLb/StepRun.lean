import Mathlib.Logic.Basic

/-! Runs of a labelled step relation. Nothing here names a system: a later
module supplies its states, its labels and what one step may do. -/
namespace OmegaLb.StepRun

variable {σ ε : Type}

inductive Run (step : σ → ε → σ → Prop) : σ → List ε → σ → Prop where
  | nil (s : σ) : Run step s [] s
  | cons {s e t es u} (head : step s e t) (tail : Run step t es u) : Run step s (e :: es) u

def Guarded (guard : σ → ε → Prop) (step : σ → ε → σ → Prop) : σ → ε → σ → Prop :=
  fun s e t => guard s e ∧ step s e t

theorem runInvariant {step : σ → ε → σ → Prop} {inv : σ → Prop}
    (preserved : ∀ s e t, inv s → step s e t → inv t)
    {s es t} (run : Run step s es t) (start : inv s) : inv t := by
  induction run with
  | nil s => exact start
  | cons head _ ih => exact ih (preserved _ _ _ start head)

theorem guardedInvariant {guard : σ → ε → Prop} {step : σ → ε → σ → Prop} {inv : σ → Prop}
    (preserved : ∀ s e t, inv s → guard s e → step s e t → inv t)
    {s es t} (run : Run (Guarded guard step) s es t) (start : inv s) : inv t :=
  runInvariant (fun s e t held taken => preserved s e t held taken.1 taken.2) run start

theorem guardedAlso {guard : σ → ε → Prop} {step also : σ → ε → σ → Prop} {inv : σ → Prop}
    (preserved : ∀ s e t, inv s → guard s e → step s e t → inv t)
    (gives : ∀ s e t, inv s → guard s e → step s e t → also s e t)
    {s es t} (run : Run (Guarded guard step) s es t) (start : inv s) :
    Run (fun s e t => step s e t ∧ also s e t) s es t := by
  induction run with
  | nil s => exact .nil s
  | cons head _ ih =>
    have next := preserved _ _ _ start head.1 head.2
    exact .cons ⟨head.2, gives _ _ _ start head.1 head.2⟩ (ih next)

/-- Steps that lead into `inv`: a run of these passes through no other state. -/
def Along (inv : σ → Prop) (step : σ → ε → σ → Prop) : σ → ε → σ → Prop :=
  fun s e t => step s e t ∧ inv t

theorem alongGuarded {guard : σ → ε → Prop} {step : σ → ε → σ → Prop} {known inv : σ → Prop}
    (kept : ∀ s e t, known s → step s e t → known t)
    (exactly_ : ∀ s e t, known s → inv s → step s e t → (inv t ↔ guard s e))
    {s es t} (start : known s) (first : inv s) :
    Run (Along inv step) s es t ↔ Run (Guarded guard step) s es t := by
  constructor
  · intro run
    induction run with
    | nil s => exact .nil s
    | cons head _ ih =>
      have admitted := (exactly_ _ _ _ start first head.1).mp head.2
      exact .cons ⟨admitted, head.1⟩ (ih (kept _ _ _ start head.1) head.2)
  · intro run
    induction run with
    | nil s => exact .nil s
    | cons head _ ih =>
      have reached := (exactly_ _ _ _ start first head.2).mpr head.1
      exact .cons ⟨head.2, reached⟩ (ih (kept _ _ _ start head.2) reached)

theorem eachGuarded {guard : σ → ε → Prop} {step also : σ → ε → σ → Prop} {known : σ → Prop}
    (kept : ∀ s e t, known s → step s e t → known t)
    (exactly_ : ∀ s e t, known s → step s e t → (also s e t ↔ guard s e))
    {s es t} (start : known s) :
    Run (fun s e t => step s e t ∧ also s e t) s es t ↔ Run (Guarded guard step) s es t := by
  constructor
  · intro run
    induction run with
    | nil s => exact .nil s
    | cons head _ ih =>
      have admitted := (exactly_ _ _ _ start head.1).mp head.2
      exact .cons ⟨admitted, head.1⟩ (ih (kept _ _ _ start head.1))
  · intro run
    induction run with
    | nil s => exact .nil s
    | cons head _ ih =>
      have holds := (exactly_ _ _ _ start head.2).mpr head.1
      exact .cons ⟨head.2, holds⟩ (ih (kept _ _ _ start head.2))

theorem runWeaken {step other : σ → ε → σ → Prop} (weaken : ∀ s e t, step s e t → other s e t)
    {s es t} (run : Run step s es t) : Run other s es t := by
  induction run with
  | nil s => exact .nil s
  | cons head _ ih => exact .cons (weaken _ _ _ head) ih

theorem runAppend {step : σ → ε → σ → Prop} {s es t fs u}
    (first : Run step s es t) (second : Run step t fs u) : Run step s (es ++ fs) u := by
  induction first with
  | nil s => exact second
  | cons head _ ih => exact .cons head (ih second)

theorem runSnoc {step : σ → ε → σ → Prop} {s es t e u}
    (first : Run step s es t) (last : step t e u) : Run step s (es ++ [e]) u :=
  runAppend first (.cons last (.nil u))

theorem runSplit {step : σ → ε → σ → Prop} {s es fs u} (run : Run step s (es ++ fs) u) :
    ∃ t, Run step s es t ∧ Run step t fs u := by
  induction es generalizing s with
  | nil => exact ⟨s, .nil s, run⟩
  | cons e es ih =>
    cases run with
    | cons head tail =>
      obtain ⟨t, first, second⟩ := ih tail
      exact ⟨t, .cons head first, second⟩

theorem runStuck {step : σ → ε → σ → Prop} {s es t} (stuck : ∀ e u, ¬ step s e u) (run : Run step s es t) :
    es = [] ∧ t = s := by
  cases run with
  | nil => exact ⟨rfl, rfl⟩
  | cons head _ => exact absurd head (stuck _ _)

theorem runTrace {step : σ → ε → σ → Prop} {inv : List ε → σ → Prop}
    (preserved : ∀ es s e t, inv es s → step s e t → inv (es ++ [e]) t)
    {s es t} (run : Run step s es t) (before : List ε) (start : inv before s) :
    inv (before ++ es) t := by
  induction run generalizing before with
  | nil s => simpa using start
  | @cons s e t es u head _ ih =>
    have next := ih (before ++ [e]) (preserved before s e t start head)
    simpa using next

theorem runExtends {step : σ → ε → σ → Prop}
    (determined : ∀ s e t f u, step s e t → step s f u → t = u)
    {s es t fs u} (first : Run step s es t) (last : Run step s fs u)
    (stuck : ∀ e v, ¬ step u e v) : ∃ gs, Run step t gs u := by
  induction first generalizing fs with
  | nil s => exact ⟨fs, last⟩
  | @cons s e t es t' head _ ih =>
    cases last with
    | nil => exact absurd head (stuck e t)
    | cons other rest =>
      rw [determined _ _ _ _ _ other head] at rest
      exact ih rest

/-! ### Systems whose steps are partial functions -/

def Does (exec : σ → ε → Option σ) (s : σ) (e : ε) (t : σ) : Prop := exec s e = some t

theorem runFoldlM {exec : σ → ε → Option σ} {s t : σ} {es : List ε}
    (done : es.foldlM exec s = some t) : Run (Does exec) s es t := by
  induction es generalizing s with
  | nil =>
    cases Option.some.inj done
    exact .nil _
  | cons e es ih =>
    rw [List.foldlM_cons] at done
    obtain ⟨u, first, rest⟩ := Option.bind_eq_some_iff.mp done
    exact .cons first (ih rest)

/-- A guarded run passes through the states of its unguarded prefixes. -/
theorem doesSplit {guard : σ → ε → Prop} {exec : σ → ε → Option σ} {s u t : σ} {es fs : List ε}
    (run : Run (Guarded guard (Does exec)) s (es ++ fs) t) (first : Run (Does exec) s es u) :
    Run (Guarded guard (Does exec)) s es u ∧ Run (Guarded guard (Does exec)) u fs t := by
  induction first with
  | nil s => exact ⟨.nil s, run⟩
  | cons head _ ih =>
    cases run with
    | cons also rest =>
      cases Option.some.inj (head.symm.trans also.2)
      obtain ⟨before, after⟩ := ih rest
      exact ⟨.cons also before, after⟩

def runGuarded (guard : σ → ε → Prop) [∀ s e, Decidable (guard s e)] (exec : σ → ε → Option σ)
    (s : σ) (es : List ε) : Option σ :=
  es.foldlM (fun s e => if guard s e then exec s e else none) s

theorem runGuardedRun {guard : σ → ε → Prop} [∀ s e, Decidable (guard s e)] {exec : σ → ε → Option σ}
    {s t : σ} {es : List ε} (done : runGuarded guard exec s es = some t) :
    Run (Guarded guard (Does exec)) s es t := by
  refine runWeaken (fun u e v taken => ?_) (runFoldlM done)
  simp only [Does] at taken
  split at taken
  · exact ⟨‹_›, taken⟩
  · contradiction

/-- A run that ends in a state of which `p` holds, where all of it can be evaluated. -/
theorem runGuardedAny {guard : σ → ε → Prop} [∀ s e, Decidable (guard s e)] {exec : σ → ε → Option σ}
    {s : σ} {es : List ε} {p : σ → Bool} (done : (runGuarded guard exec s es).any p = true) :
    ∃ t, Run (Guarded guard (Does exec)) s es t ∧ p t = true := by
  obtain ⟨t, reached, holds⟩ := (Option.any_eq_true _ _).mp done
  exact ⟨t, runGuardedRun reached, holds⟩

theorem runAny {exec : σ → ε → Option σ} {s : σ} {es : List ε} {p : σ → Bool}
    (done : (es.foldlM exec s).any p = true) : ∃ t, Run (Does exec) s es t ∧ p t = true := by
  obtain ⟨t, reached, holds⟩ := (Option.any_eq_true _ _).mp done
  exact ⟨t, runFoldlM reached, holds⟩

/-! ### One party of several takes a step -/

theorem everySet {α : Type} {promise : α → Prop} {parties : List α} (every : ∀ x ∈ parties, promise x) (i : Nat)
    {next : α} (kept : promise next) : ∀ x ∈ parties.set i next, promise x := by
  intro x inside
  rcases List.mem_or_eq_of_mem_set inside with before | rfl
  · exact every x before
  · exact kept

/-! ### Systems that answer calls -/

variable {κ ρ : Type}

def Answers (exec : σ → κ → σ × ρ) (s : σ) (e : κ × ρ) (t : σ) : Prop := exec s e.1 = (t, e.2)

def perform (exec : σ → κ → σ × ρ) : σ → List κ → List (κ × ρ) × σ
  | s, [] => ([], s)
  | s, c :: cs =>
    let (t, r) := exec s c
    let (es, u) := perform exec t cs
    ((c, r) :: es, u)

def Allowed (guard : σ → κ × ρ → Prop) (exec : σ → κ → σ × ρ) : σ → List κ → Prop
  | _, [] => True
  | s, c :: cs => guard s (c, (exec s c).2) ∧ Allowed guard exec (exec s c).1 cs

instance Allowed.decide (guard : σ → κ × ρ → Prop) [∀ s e, Decidable (guard s e)]
    (exec : σ → κ → σ × ρ) : ∀ s cs, Decidable (Allowed guard exec s cs)
  | _, [] => .isTrue trivial
  | s, c :: cs =>
    have := Allowed.decide guard exec (exec s c).1 cs
    inferInstanceAs (Decidable (guard s (c, (exec s c).2) ∧ Allowed guard exec (exec s c).1 cs))

theorem performRun {guard : σ → κ × ρ → Prop} {exec : σ → κ → σ × ρ} {s : σ} {cs : List κ}
    (allowed : Allowed guard exec s cs) :
    Run (Guarded guard (Answers exec)) s (perform exec s cs).1 (perform exec s cs).2 := by
  induction cs generalizing s with
  | nil => exact .nil s
  | cons c cs ih => exact .cons ⟨allowed.1, rfl⟩ (ih allowed.2)

end OmegaLb.StepRun
