import OmegaLb.GoMath
import OmegaLb.Simplex
import Mathlib.Data.List.Sort

/-! The safety projection of cbf.go. Log lines change nothing and are left out, and with them
the distance that only they show. -/
namespace OmegaLb.CbfProjector
open Simplex (OnSimplex LastAbove Above clip mass)

structure CBFProjector (F : Type) where
  lambda : F
  capPct : F
  lastSafeW : List F
  consecutiveFailures : Int
  frozenMode : Bool

structure CBFBackendState (F : Type) where
  id : UInt32
  currentLoad : F

def maxConsecutiveFails : Int := 3

inductive CBFError (F : Type) where
  | countMismatch (weights backends : Nat)
  | rawNotFinite (i : Nat) (v : F)
  | projectedNotFinite (i : Nat)
  deriving DecidableEq, Repr

def CBFError.text {F : Type} (shown : F → String) : CBFError F → String
  | .countMismatch weights backends =>
    "weight/backend count mismatch: " ++ toString weights ++ " vs " ++ toString backends
  | .rawNotFinite i v =>
    "rawW[" ++ toString i ++ "] is not finite (" ++ shown v ++ "); possible upstream NaN propagation"
  | .projectedNotFinite i =>
    "projected w[" ++ toString i ++
      "] is not finite after gradient descent; numerical instability"

section Model
variable {F : Type} [GoMath F]

def newCBFProjector (lambda capPct : F) : CBFProjector F where
  lambda := if GoMath.le lambda (GoFloat.lit 0) then GoFloat.lit 0.5 else lambda
  capPct := if GoMath.le capPct (GoFloat.lit 0) || GoFloat.gt capPct (GoFloat.lit 1) then
    GoFloat.lit 0.80 else capPct
  lastSafeW := []
  consecutiveFailures := 0
  frozenMode := false

def uniformWeights (n : Nat) : List F := List.replicate n (GoFloat.lit 1.0 / GoFloat.ofInt n)

/-! ### projectOntoSimplex -/

/-- The sorted part is walked from its end: `key` passes every element it is greater than. -/
def insertDesc (key : F) : List F → List F
  | [] => [key]
  | x :: rest => if GoFloat.gt key x then x :: insertDesc key rest else key :: x :: rest

def sortDesc (v : List F) : List F := (v.foldl (fun sorted key => insertDesc key sorted) []).reverse

def scanRho : List F → Nat → F → Nat → Nat
  | [], _, _, rho => rho
  | ui :: rest, i, cssv, rho =>
    let cssv := cssv + ui
    let above := GoFloat.gt (ui - (cssv - GoFloat.lit 1) / GoFloat.ofInt (i + 1)) (GoFloat.lit 0)
    scanRho rest (i + 1) cssv (if above then i else rho)

def threshold (v : List F) : F :=
  let u := sortDesc v
  let rho := scanRho u 0 (GoFloat.lit 0.0) 0
  let cssv := sumFrom (GoFloat.lit 0) (u.take (rho + 1))
  (cssv - GoFloat.lit 1) / GoFloat.ofInt (rho + 1)

/-- Called with a vector that has a coordinate, so that u[0] exists. -/
def projectOntoSimplex (v : List F) : List F :=
  let theta := threshold v
  v.map fun x => GoMath.max (x - theta) (GoFloat.lit 0)

/-! ### The descent -/

def CBFProjector.slack (c : CBFProjector F) (b : CBFBackendState F) (wi : F) : F :=
  c.capPct - (b.currentLoad + wi)

def CBFProjector.violated (c : CBFProjector F) (backends : List (CBFBackendState F))
    (w : List F) : Bool :=
  (backends.zip w).any fun (b, wi) => GoFloat.gt (GoFloat.lit 0) (c.slack b wi)

def CBFProjector.gradient (c : CBFProjector F) (b : CBFBackendState F) (wi rawi : F) : F :=
  let h := c.slack b wi
  let grad := GoFloat.lit 0
  let grad := if GoFloat.gt (GoFloat.lit 0) h then grad + -c.lambda * h else grad
  grad + GoFloat.lit 2.0 * (wi - rawi)

def CBFProjector.gradientStep (c : CBFProjector F) (rawW : List F)
    (backends : List (CBFBackendState F)) (w : List F) : List F :=
  (backends.zip (w.zip rawW)).map fun (b, wi, rawi) =>
    wi - GoFloat.lit 0.05 * c.gradient b wi rawi

def CBFProjector.descend (c : CBFProjector F) (rawW : List F)
    (backends : List (CBFBackendState F)) : Nat → List F → List F
  | 0, w => w
  | iter + 1, w =>
    if c.violated backends w then
      c.descend rawW backends iter (projectOntoSimplex (c.gradientStep rawW backends w))
    else w

/-! ### Project -/

def CBFProjector.failSafe (c : CBFProjector F) (rawW : List F) (cause : CBFError F) :
    CBFProjector F × List F × Option (CBFError F) :=
  let c := { c with consecutiveFailures := c.consecutiveFailures + 1 }
  let c := if c.consecutiveFailures ≥ maxConsecutiveFails then { c with frozenMode := true } else c
  if c.lastSafeW.length = rawW.length then (c, c.lastSafeW, some cause)
  else (c, uniformWeights rawW.length, some cause)

def firstNotFinite (v : List F) : Option (F × Nat) := v.zipIdx.find? fun (x, _) => !GoMath.isFinite x

def maxIter : Nat := 200

/-- The state vector is not read. -/
def CBFProjector.project (c : CBFProjector F) (rawW _state : List F)
    (backends : List (CBFBackendState F)) : CBFProjector F × List F × Option (CBFError F) :=
  let n := rawW.length
  if n = 0 then (c, rawW, none)
  else if backends.length ≠ n then c.failSafe rawW (.countMismatch n backends.length)
  else match firstNotFinite rawW with
    | some (v, i) => c.failSafe rawW (.rawNotFinite i v)
    | none =>
      let w := c.descend rawW backends maxIter (projectOntoSimplex rawW)
      match firstNotFinite w with
      | some (_, i) => c.failSafe rawW (.projectedNotFinite i)
      | none => ({ c with lastSafeW := w, consecutiveFailures := 0, frozenMode := false }, w, none)

def CBFProjector.isFrozen (c : CBFProjector F) : Bool := c.frozenMode

def CBFProjector.reset (c : CBFProjector F) : CBFProjector F :=
  { c with frozenMode := false, consecutiveFailures := 0 }

theorem projectLength (v : List F) : (projectOntoSimplex v).length = v.length :=
  List.length_map _

end Model

/-! ### Over the rationals -/

theorem insertDescOrdered (key : ℚ) (v : List ℚ) : insertDesc key v = v.orderedInsert (· ≤ ·) key := by
  induction v with
  | nil => rfl
  | cons x rest ih =>
    rw [insertDesc, ratGt, List.orderedInsert, ih]
    by_cases before : key ≤ x
    · simp [before]
    · simp [before, not_le.mp before]

theorem sortDescInsertion (v : List ℚ) :
    sortDesc v = (v.reverse.insertionSort (· ≤ ·)).reverse := by
  unfold sortDesc List.insertionSort
  rw [List.foldr_reverse]
  simp only [insertDescOrdered]

theorem sortDescPerm (v : List ℚ) : (sortDesc v).Perm v := by
  rw [sortDescInsertion]
  exact (List.reverse_perm _).trans ((List.perm_insertionSort _ _).trans (List.reverse_perm v))

theorem sortDescDescending (v : List ℚ) : (sortDesc v).Pairwise (· ≥ ·) := by
  rw [sortDescInsertion, List.pairwise_reverse]
  exact List.pairwise_insertionSort _ _

/-- The scan has passed `seen`, and `rho` is its last coordinate above the level. -/
theorem scanRhoLast (rest : List ℚ) {seen : List ℚ} {rho : Nat} {before : List ℚ} {x : ℚ}
    {after : List ℚ} (found : LastAbove seen rho before x after) : ∃ before x after,
      LastAbove (seen ++ rest) (scanRho rest seen.length seen.sum rho) before x after := by
  induction rest generalizing seen rho before x after with
  | nil => exact ⟨before, x, after, by simpa [scanRho] using found⟩
  | cons ui rest ih =>
    have sum : seen.sum + ui = (seen ++ [ui]).sum := by simp
    have length : seen.length + 1 = (seen ++ [ui]).length := by simp
    rw [scanRho, List.append_cons]
    simp only [ratGt, ratLit, ratOfInt, decide_eq_true_eq, Int.cast_add, Int.cast_natCast,
      Int.cast_one]
    split
    · rename_i above
      rw [sum, length]
      exact ih (Simplex.lastAboveNew above)
    · rename_i under
      rw [sum, length]
      exact ih (Simplex.lastAboveOld found under)

theorem thresholdMass {v : List ℚ} (nonempty : v ≠ []) : mass (threshold v) v = 1 := by
  have descending := sortDescDescending v
  rw [← Simplex.massPerm _ (sortDescPerm v)]
  unfold threshold
  cases sorted : sortDesc v with
  | nil => exact absurd (List.nil_perm.mp (sorted ▸ sortDescPerm v)) nonempty
  | cons ui rest =>
    rw [sorted] at descending
    obtain ⟨before, x, after, found⟩ := scanRhoLast rest (Simplex.lastAboveNew
      (Simplex.aboveFirst ui))
    have scanned : scanRho (ui :: rest) 0 (GoFloat.lit 0.0 : ℚ) 0 =
        scanRho rest ([] ++ [ui]).length ([] ++ [ui]).sum ([] : List ℚ).length := by
      norm_num [scanRho]
    have kept : (ui :: rest).take (before.length + 1) = before ++ [x] := by
      have whole : ui :: rest = (before ++ [x]) ++ after := by
        simpa using found.split
      rw [whole, List.take_left' (by simp)]
    have level := Simplex.massLastAbove descending found
    simp only [scanned, found.position, kept, sumFromSum]
    simpa [add_sub_assoc] using level

theorem projectClip (v : List ℚ) : projectOntoSimplex v = clip (threshold v) v := by
  simp [projectOntoSimplex, clip]

theorem projectOnSimplex {v : List ℚ} (nonempty : v ≠ []) : OnSimplex (projectOntoSimplex v) := by
  rw [projectClip]
  exact Simplex.clipOnSimplex (thresholdMass nonempty)

theorem noneNotFinite (v : List ℚ) : firstNotFinite v = none := by
  simp [firstNotFinite]

theorem projectDescends (c : CBFProjector ℚ) {rawW : List ℚ} (state : List ℚ)
    {backends : List (CBFBackendState ℚ)} (counted : backends.length = rawW.length)
    (nonempty : rawW ≠ []) :
    let w := c.descend rawW backends maxIter (projectOntoSimplex rawW)
    c.project rawW state backends =
      ({ c with lastSafeW := w, consecutiveFailures := 0, frozenMode := false }, w, none) := by
  have some_ : rawW.length ≠ 0 := fun zero => nonempty (List.length_eq_zero_iff.mp zero)
  simp only [CBFProjector.project, some_, counted, noneNotFinite, if_false, ne_eq, not_true]

end OmegaLb.CbfProjector
