import OmegaLb.Simplex

/-! KANInference of kan_inference.py. The vectors of a call have one length and are taken backend by
backend; a session is what it answers to its input row, and what it raises is only printed. -/
namespace OmegaLb.KanInference
open Simplex (OnSimplex)

variable {K : Type} [Field K] [LinearOrder K]

structure Backend (K : Type) where
  cpu : K
  latMs : K
  err : K
  health : Bool
  deriving DecidableEq, Repr

inductive Mode where
  | onnx
  | symbolic
  deriving DecidableEq, Repr

structure KANStats (K : Type) where
  inferenceCount : Nat
  onnxCount : Nat
  symbolicCount : Nat
  errorCount : Nat
  meanLatencyMs : K
  deriving DecidableEq, Repr

structure KANInference (K : Type) where
  session : Option (List K → Option (List K))
  stats : KANStats K
  cpuCoeff : K
  latCoeff : K
  errCoeff : K

def KANInference.init (session : Option (List K → Option (List K))) : KANInference K where
  session := session
  stats := ⟨0, 0, 0, 0, 0⟩
  cpuCoeff := 42 / 100
  latCoeff := 31 / 100
  errCoeff := 10

def KANStats.record (s : KANStats K) (mode : Mode) (latencyMs : K) (error : Bool) : KANStats K where
  inferenceCount := s.inferenceCount + 1
  onnxCount := if mode = .onnx then s.onnxCount + 1 else s.onnxCount
  symbolicCount := if mode = .onnx then s.symbolicCount else s.symbolicCount + 1
  errorCount := if error then s.errorCount + 1 else s.errorCount
  meanLatencyMs := 1 / 20 * latencyMs + (1 - 1 / 20) * s.meanLatencyMs

/-! ### The symbolic equations -/

def flag (b : Backend K) : K := if b.health then 1 else 0

def KANInference.raw (k : KANInference K) (b : Backend K) : K :=
  max 0 (1 - k.cpuCoeff * b.cpu - k.latCoeff * b.latMs / 1000 - k.errCoeff * b.err) * flag b

def KANInference.inferSymbolic (k : KANInference K) (backends : List (Backend K)) : List K :=
  let h := backends.map flag
  let raw := backends.map k.raw
  let total := raw.sum
  if total < 1 / 10 ^ 9 then
    let healthyCount := h.sum
    if healthyCount > 0 then h.map (· / healthyCount) else List.replicate h.length (1 / (h.length : K))
  else raw.map (· / total)

/-! ### The ONNX session -/

/-- np.max, which raises on an empty vector -/
def npMax : List K → Option K
  | [] => none
  | x :: rest => some (rest.foldl max x)

/-- The product of two vectors, where numpy stretches one of a single entry. -/
def npMul : List K → List K → Option (List K)
  | [x], u => some (u.map (x * ·))
  | v, [y] => some (v.map (· * y))
  | v, u => if v.length = u.length then some (List.zipWith (· * ·) v u) else none

def features (b : Backend K) : List K :=
  let queueEst := max 0 (b.cpu - 1 / 2) * 100
  [b.cpu, b.cpu * 1000, queueEst, b.latMs, b.cpu * 1024 * 100, b.cpu * 512 * 100, flag b, b.err]

def stateRow (backends : List (Backend K)) (sinT cosT : K) : Option (List K) := do
  let p99 ← npMax (backends.map Backend.latMs)
  return backends.flatMap features ++ [(backends.map Backend.cpu).sum * 1000, p99, sinT, cosT]

def inferOnnx (run : List K → Option (List K)) (backends : List (Backend K)) (sinT cosT : K) :
    Option (List K) := do
  let h := backends.map flag
  let state ← stateRow backends sinT cosT
  let output ← run state
  let raw ← npMul (output.map fun x => max x 0) h
  let total := raw.sum
  return if total > 1 / 10 ^ 9 then raw.map (· / total) else h.map (· / max h.sum 1)

def KANInference.infer (k : KANInference K) (backends : List (Backend K)) (latencyMs sinT cosT : K) :
    List K × KANInference K :=
  match k.session with
  | none => (k.inferSymbolic backends, { k with stats := k.stats.record .symbolic latencyMs false })
  | some run =>
    match inferOnnx run backends sinT cosT with
    | some w => (w, { k with stats := k.stats.record .onnx latencyMs false })
    | none => (k.inferSymbolic backends, { k with stats := k.stats.record .symbolic latencyMs true })

/-! ### A routing distribution -/

structure Routing (backends : List (Backend K)) (w : List K) : Prop where
  aligned : w.length = backends.length
  simplex : OnSimplex w
  masked : (∃ b ∈ backends, b.health = true) →
    ∀ (i : Nat) (b : Backend K) (x : K), backends[i]? = some b → w[i]? = some x → b.health = false → x = 0

/-- No weight is negative, and none is left where a backend is down. -/
def Masked (backends : List (Backend K)) (v : List K) : Prop :=
  List.Forall₂ (fun b x => 0 ≤ x ∧ (b.health = false → x = 0)) backends v

theorem maskedMap {backends : List (Backend K)} {f : Backend K → K} (nonneg : ∀ b, 0 ≤ f b)
    (down : ∀ b, b.health = false → f b = 0) : Masked backends (backends.map f) :=
  List.forall₂_map_right_iff.mpr (List.forall₂_same.mpr fun b _ => ⟨nonneg b, down b⟩)

theorem maskedNonneg {backends : List (Backend K)} {v : List K} (masked : Masked backends v) :
    ∀ x ∈ v, 0 ≤ x := by
  induction masked with
  | nil => exact fun _ member => absurd member List.not_mem_nil
  | cons first rest ih => exact List.forall_mem_cons.mpr ⟨first.1, ih⟩

theorem maskedAt {backends : List (Backend K)} {v : List K} (masked : Masked backends v) {i : Nat}
    {b : Backend K} {x : K} (at_ : backends[i]? = some b) (value : v[i]? = some x) (down : b.health = false) :
    x = 0 := by
  induction masked generalizing i with
  | nil => simp at at_
  | cons first rest ih =>
    cases i with
    | zero =>
      cases at_
      cases value
      exact first.2 down
    | succ i => exact ih at_ value

section Ordered
variable [IsStrictOrderedRing K]

theorem flagNonneg (b : Backend K) : 0 ≤ flag b := by
  unfold flag
  split
  · exact zero_le_one
  · exact le_refl 0

omit [IsStrictOrderedRing K] [LinearOrder K] in
theorem flagDown {b : Backend K} (down : b.health = false) : flag b = 0 := by
  rw [flag, if_neg (by simp [down])]

theorem maskedShare {backends : List (Backend K)} {v : List K} (masked : Masked backends v)
    (positive : 0 < v.sum) : Routing backends (v.map (· / v.sum)) where
  aligned := (List.length_map _).trans masked.length_eq.symm
  simplex := Simplex.shareOnSimplex (maskedNonneg masked) positive
  masked := by
    intro _ i b x at_ value down
    rw [List.getElem?_map] at value
    obtain ⟨y, before, rfl⟩ := Option.map_eq_some_iff.mp value
    rw [maskedAt masked at_ before down, zero_div]

theorem maskedFlags (backends : List (Backend K)) : Masked backends (backends.map flag) :=
  maskedMap flagNonneg fun _ => flagDown

/-- How many backends are up, where one is. -/
theorem flagsSome {backends : List (Backend K)} (up : ∃ b ∈ backends, b.health = true) :
    1 ≤ (backends.map flag).sum := by
  obtain ⟨b, member, health⟩ := up
  have one : flag b = 1 := if_pos health
  have least := List.single_le_sum (maskedNonneg (maskedFlags backends)) (flag b) (List.mem_map_of_mem member)
  exact one ▸ least

omit [IsStrictOrderedRing K] [LinearOrder K] in
theorem flagsNone {backends : List (Backend K)} (down : ¬ ∃ b ∈ backends, b.health = true) :
    (backends.map flag).sum = 0 := by
  refine List.sum_eq_zero fun x member => ?_
  obtain ⟨b, inside, rfl⟩ := List.mem_map.mp member
  refine flagDown (Bool.eq_false_iff.mpr fun health => down ⟨b, inside, health⟩)

theorem maskedProduct {backends : List (Backend K)} {out : List K} (fits : out.length = backends.length) :
    Masked backends (List.zipWith (· * ·) (out.map fun x => max x 0) (backends.map flag)) := by
  induction backends generalizing out with
  | nil =>
    cases List.length_eq_zero_iff.mp fits
    exact .nil
  | cons b backends ih =>
    obtain ⟨x, out, rfl⟩ := List.exists_cons_of_length_eq_add_one fits
    refine .cons ⟨mul_nonneg (le_max_right x 0) (flagNonneg b), fun down => ?_⟩ (ih (Nat.succ.inj fits))
    rw [flagDown down]
    exact mul_zero _

omit [IsStrictOrderedRing K] in
theorem maskedNone {backends : List (Backend K)} {v : List K} (masked : Masked backends v)
    (down : ¬ ∃ b ∈ backends, b.health = true) : v.sum = 0 := by
  induction masked with
  | nil => rfl
  | cons first rest ih =>
    have tail := ih fun ⟨b, member, health⟩ => down ⟨b, List.mem_cons_of_mem _ member, health⟩
    have head := first.2 (Bool.eq_false_iff.mpr fun health => down ⟨_, List.mem_cons_self, health⟩)
    rw [List.sum_cons, head, tail, add_zero]

/-! ### Both paths -/

theorem symbolicRouting (k : KANInference K) {backends : List (Backend K)} (nonempty : backends ≠ []) :
    Routing backends (k.inferSymbolic backends) := by
  have scores : Masked backends (backends.map k.raw) := by
    refine maskedMap (fun b => mul_nonneg (le_max_left 0 _) (flagNonneg b)) fun b down => ?_
    rw [KANInference.raw, flagDown down, mul_zero]
  unfold KANInference.inferSymbolic
  dsimp only
  split
  · split
    · rename_i up
      exact maskedShare (maskedFlags backends) up
    · rename_i nobody
      rw [List.length_map]
      refine ⟨List.length_replicate, Simplex.evenOnSimplex (List.length_pos_iff.mpr nonempty), fun up => ?_⟩
      exact absurd (lt_of_lt_of_le zero_lt_one (flagsSome up)) nobody
  · rename_i large
    exact maskedShare scores (lt_of_lt_of_le (by positivity) (not_lt.mp large))

omit [IsStrictOrderedRing K] [LinearOrder K] in
theorem npMulAligned {v u : List K} (aligned : v.length = u.length) :
    npMul v u = some (List.zipWith (· * ·) v u) := by
  unfold npMul
  split
  · obtain ⟨y, rfl⟩ := List.length_eq_one_iff.mp aligned.symm
    rfl
  · obtain ⟨x, rfl⟩ := List.length_eq_one_iff.mp aligned
    rfl
  · rw [if_pos aligned]

omit [IsStrictOrderedRing K] in
/-- The session's path goes as far as the session does. -/
theorem onnxNone {run : List K → Option (List K)} {backends : List (Backend K)} {sinT cosT : K}
    (raises : (stateRow backends sinT cosT).bind run = none) : inferOnnx run backends sinT cosT = none := by
  unfold inferOnnx
  cases row : stateRow backends sinT cosT with
  | none => rfl
  | some state =>
    rw [row, Option.bind_some] at raises
    simp [raises]

theorem onnxSome {run : List K → Option (List K)} {backends : List (Backend K)} {sinT cosT : K} {out : List K}
    (answers : (stateRow backends sinT cosT).bind run = some out) (fits : out.length = backends.length) :
    ∃ w, inferOnnx run backends sinT cosT = some w ∧
      (Routing backends w ↔ ∃ b ∈ backends, b.health = true) := by
  obtain ⟨state, row, output⟩ := Option.bind_eq_some_iff.mp answers
  have aligned : (out.map fun x => max x 0).length = (backends.map flag : List K).length := by simp [fits]
  have product : Masked backends (List.zipWith (· * ·) (out.map fun x => max x 0) (backends.map flag)) :=
    maskedProduct fits
  have path : inferOnnx run backends sinT cosT = some
      (let raw := List.zipWith (· * ·) (out.map fun x => max x 0) (backends.map flag)
       if raw.sum > 1 / 10 ^ 9 then raw.map (· / raw.sum)
       else (backends.map flag).map (· / max (backends.map flag).sum 1)) := by
    simp [inferOnnx, row, output, npMulAligned aligned]
  refine ⟨_, path, ?_⟩
  dsimp only
  by_cases up : ∃ b ∈ backends, b.health = true
  · refine iff_of_true ?_ up
    split
    · rename_i large
      exact maskedShare product (lt_trans (by positivity) large)
    · have counted : (1 : K) ≤ (backends.map flag).sum := flagsSome up
      rw [max_eq_left counted]
      exact maskedShare (maskedFlags backends) (lt_of_lt_of_le zero_lt_one counted)
  · have nothing : ¬ (0 : K) > 1 / 10 ^ 9 := not_lt.mpr (by positivity)
    rw [maskedNone product up, if_neg nothing, flagsNone up, max_eq_right zero_le_one]
    refine iff_of_false (fun routing => ?_) up
    have total := routing.simplex.total
    simp only [div_one, List.map_id'] at total
    rw [flagsNone up] at total
    exact zero_ne_one total

/-- The session's own path leaves no weight at all where every backend is down. -/
theorem inferRouting (k : KANInference K) {backends : List (Backend K)} (nonempty : backends ≠ [])
    (latencyMs sinT cosT : K)
    (fits : ∀ run out, k.session = some run → (stateRow backends sinT cosT).bind run = some out →
      out.length = backends.length) :
    Routing backends (k.infer backends latencyMs sinT cosT).1 ↔ (∃ b ∈ backends, b.health = true) ∨
      ∀ run, k.session = some run → (stateRow backends sinT cosT).bind run = none := by
  unfold KANInference.infer
  cases session : k.session with
  | none => exact iff_of_true (symbolicRouting k nonempty) (.inr fun _ absent => by contradiction)
  | some run =>
    dsimp only
    cases answer : (stateRow backends sinT cosT).bind run with
    | none =>
      rw [onnxNone answer]
      refine iff_of_true (symbolicRouting k nonempty) (.inr fun run' same => ?_)
      cases same
      exact answer
    | some out =>
      obtain ⟨w, path, exact_⟩ := onnxSome answer (fits run out session answer)
      rw [path]
      refine exact_.trans ⟨.inl, fun either => either.resolve_right fun raises => ?_⟩
      exact Option.some_ne_none out (answer.symm.trans (raises run rfl))

end Ordered

/-! ### What the statistics count -/

/-- Every inference is counted once, and errors only among those of the fallback. -/
structure Counted (s : KANStats K) : Prop where
  modes : s.inferenceCount = s.onnxCount + s.symbolicCount
  errors : s.errorCount ≤ s.symbolicCount

omit [LinearOrder K] in
theorem recordCounted {s : KANStats K} (counted : Counted s) (mode : Mode) (latencyMs : K) (error : Bool)
    (fallback : error = true → mode = .symbolic) : Counted (s.record mode latencyMs error) := by
  obtain ⟨modes, errors⟩ := counted
  cases mode with
  | onnx =>
    cases error with
    | false => exact ⟨by simp [KANStats.record, modes]; omega, errors⟩
    | true => exact absurd (fallback rfl) (by simp)
  | symbolic =>
    cases error with
    | false => exact ⟨by simp [KANStats.record, modes]; omega, Nat.le_succ_of_le errors⟩
    | true => exact ⟨by simp [KANStats.record, modes]; omega, Nat.succ_le_succ errors⟩

omit [LinearOrder K] in
theorem initCounted (session : Option (List K → Option (List K))) :
    Counted (KANInference.init session : KANInference K).stats := ⟨rfl, le_refl 0⟩

theorem inferCounted {k : KANInference K} (counted : Counted k.stats) (backends : List (Backend K))
    (latencyMs sinT cosT : K) : Counted (k.infer backends latencyMs sinT cosT).2.stats := by
  unfold KANInference.infer
  split
  · exact recordCounted counted .symbolic latencyMs false fun _ => rfl
  · split
    · exact recordCounted counted .onnx latencyMs false fun error => by contradiction
    · exact recordCounted counted .symbolic latencyMs true fun _ => rfl

/-! ### A session that answers while nobody is up -/

def trained : KANInference ℚ := .init (some fun _ => some [7 / 10, 3 / 10])

def bothDown : List (Backend ℚ) := [⟨2 / 5, 45, 0, false⟩, ⟨3 / 5, 55, 0, false⟩]

theorem bothDownUnrouted : (trained.infer bothDown 1 0 1).1 = [0, 0] ∧
    ¬ Routing bothDown (trained.infer bothDown 1 0 1).1 := by
  have zeros : (trained.infer bothDown 1 0 1).1 = [0, 0] := by decide +kernel
  refine ⟨zeros, fun routing => ?_⟩
  have total := routing.simplex.total
  rw [zeros] at total
  simp at total

def oneDown : List (Backend ℚ) := [⟨2 / 5, 45, 0, true⟩, ⟨3 / 5, 55, 0, false⟩]

theorem oneDownRouted : Routing oneDown (trained.infer oneDown 1 0 1).1 := by
  refine (inferRouting trained (by decide) 1 0 1 fun run out session answer => ?_).mpr
    (.inl ⟨_, List.mem_cons_self, rfl⟩)
  cases session
  cases answer
  rfl

end OmegaLb.KanInference
