import OmegaLb.SimplexNearest
import Mathlib.Data.List.Sort

/-! The runtime projection of cbf_runtime.py, with numpy's arrays as lists over an ordered field. The
barrier values do not depend on the weights: every round pushes the same backends down. -/
namespace OmegaLb.CbfRuntime
open Simplex (OnSimplex LastAbove clip mass tests)

variable {K : Type} [Field K] [LinearOrder K]

/-! ### numpy -/

def cumsum (acc : K) : List K → List K
  | [] => []
  | x :: rest => (acc + x) :: cumsum (acc + x) rest

/-- np.sort(v)[::-1] -/
def sortedDown (v : List K) : List K := (v.insertionSort (· ≤ ·)).reverse

/-- u - (cssv - 1.0) / np.arange(1, n + 1) > 0 -/
def rhoCandidates (u : List K) : List Bool :=
  (u.zip (cumsum 0 u)).zipIdx.map fun ((x, cssv), i) => decide (x - (cssv - 1) / ((i : K) + 1) > 0)

def uniform (n : Nat) : List K := List.replicate n (1 / (n : K))

/-! ### CBFProjector -/

structure CBFProjector (K : Type) where
  cap : K
  lam : K
  lr : K
  maxIter : Int
  tol : K

def CBFProjector.init : CBFProjector K := ⟨4 / 5, 1 / 2, 1 / 100, 100, 1 / 10 ^ 6⟩

structure CBFResult (K : Type) where
  weights : List K
  fired : List Bool
  iterations : Nat
  converged : Bool
  deriving DecidableEq, Repr

def projectSimplex (v : List K) : List K :=
  let n := v.length
  let u := sortedDown v
  let cssv := cumsum 0 u
  -- np.where(rho_candidates)[0][-1]
  match ((rhoCandidates u).zipIdx.filter Prod.fst).getLast? with
  | none => uniform n
  | some (_, rho) =>
    let theta := (cssv.getD rho 0 - 1) / ((rho : K) + 1)
    v.map fun x => max (x - theta) 0

/-- caps - loads -/
def barrier (caps loads : List K) : List K := List.zipWith (fun cap load => cap - load) caps loads

def CBFProjector.grad (p : CBFProjector K) (h : List K) : List K := h.map fun x => if x < 0 then p.lam * -x else 0

def CBFProjector.move (p : CBFProjector K) (h w : List K) : List K :=
  projectSimplex (List.zipWith (fun x d => x - p.lr * d) w (p.grad h))

def widest (w u : List K) : K := (List.zipWith (fun x y => |x - y|) w u).foldl max 0

def CBFProjector.loop (p : CBFProjector K) (h : List K) : Nat → Nat → List K → List Bool → CBFResult K
  | 0, iters, w, fired => ⟨w, fired, iters, false⟩
  | left + 1, iters, w, fired =>
    let violations := h.map fun x => decide (x < 0)
    if violations.any id then
      let wNew := p.move h w
      let delta := widest wNew w
      let fired := List.zipWith (· || ·) fired violations
      if delta < p.tol then ⟨wNew, fired, iters + 1, true⟩ else p.loop h left (iters + 1) wNew fired
    else ⟨w, fired, iters, true⟩

def startWeights (weights : List K) : List K :=
  let w := weights.map fun x => max x 0
  let total := w.sum
  if total > 1 / 10 ^ 9 then w.map (· / total) else uniform weights.length

def CBFProjector.projectFull (p : CBFProjector K) (weights loads : List K) (caps : Option (List K)) :
    CBFResult K :=
  let n := weights.length
  let caps := caps.getD (List.replicate n p.cap)
  p.loop (barrier caps loads) p.maxIter.toNat 0 (startWeights weights) (List.replicate n false)

def CBFProjector.project (p : CBFProjector K) (weights loads : List K) (caps : Option (List K)) :
    List K × List Bool :=
  let result := p.projectFull weights loads caps
  (result.weights, result.fired)

/-! ### The level that the scan finds -/

omit [Field K] in
theorem sortedDownPerm (v : List K) : (sortedDown v).Perm v :=
  (List.reverse_perm _).trans (List.perm_insertionSort _ _)

omit [Field K] in
theorem sortedDownDescends (v : List K) : (sortedDown v).Pairwise (· ≥ ·) := by
  rw [sortedDown, List.pairwise_reverse]
  exact List.pairwise_insertionSort _ _

omit [LinearOrder K] in
theorem cumsumAt (acc : K) (u : List K) (i : Nat) :
    (cumsum acc u)[i]? = u[i]?.map fun _ => acc + (u.take (i + 1)).sum := by
  induction u generalizing acc i with
  | nil => rfl
  | cons x rest ih =>
    cases i with
    | zero => simp [cumsum]
    | succ i => simp [cumsum, ih, add_assoc]

theorem candidatesFrom (seen rest : List K) :
    (((rest.zip (cumsum seen.sum rest)).zipIdx seen.length).map fun ((x, cssv), i) =>
      decide (x - (cssv - 1) / ((i : K) + 1) > 0)) = tests seen rest := by
  induction rest generalizing seen with
  | nil => rfl
  | cons x rest ih =>
    have sum : seen.sum + x = (seen ++ [x]).sum := by simp
    have length : seen.length + 1 = (seen ++ [x]).length := by simp
    rw [cumsum, List.zip_cons_cons, List.zipIdx_cons, List.map_cons, sum, length, ih (seen ++ [x]), ← sum]
    rfl

theorem candidatesTests (u : List K) : rhoCandidates u = tests [] u := candidatesFrom [] u

variable [IsStrictOrderedRing K]

/-- What all the scans of a descending copy come to: the tests that hold come first, and the level taken
at the last of them leaves a mass of one. -/
theorem scanLevel {v : List K} (nonempty : v ≠ []) : ∃ rho late : Nat,
    rhoCandidates (sortedDown v) = List.replicate (rho + 1) true ++ List.replicate late false ∧
    (∃ last, (cumsum 0 (sortedDown v))[rho]? = some last ∧ mass ((last - 1) / ((rho : K) + 1)) v = 1) := by
  have some_ : sortedDown v ≠ [] := fun empty => nonempty (List.nil_perm.mp (empty ▸ sortedDownPerm v))
  obtain ⟨early, last, late, found, run⟩ := Simplex.testsLast (sortedDownDescends v) some_
  refine ⟨early.length, late.length, (candidatesTests _).trans run, early.sum + last, ?_, ?_⟩
  · rw [cumsumAt, found.split]
    simp
  · rw [← Simplex.massPerm _ (sortedDownPerm v)]
    exact Simplex.massLastAbove (sortedDownDescends v) found

theorem lastTrue (k m : Nat) : (((List.replicate (k + 1) true ++ List.replicate m false).zipIdx).filter
    Prod.fst).getLast? = some (true, k) := by
  have gone : ((List.replicate m false).zipIdx (k + 1)).filter Prod.fst = [] := by
    refine List.filter_eq_nil_iff.mpr fun pair member => ?_
    have false_ := List.eq_of_mem_replicate (List.fst_mem_of_mem_zipIdx member)
    simp [false_]
  rw [List.zipIdx_append, List.filter_append, List.length_replicate, Nat.zero_add, gone, List.append_nil,
    List.replicate_succ', List.zipIdx_append, List.filter_append, List.length_replicate, Nat.zero_add]
  exact List.getLast?_concat

theorem projectSimplexClip {v : List K} (nonempty : v ≠ []) :
    ∃ theta, mass theta v = 1 ∧ projectSimplex v = clip theta v := by
  obtain ⟨rho, late, run, last, at_, one⟩ := scanLevel nonempty
  refine ⟨(last - 1) / ((rho : K) + 1), one, ?_⟩
  unfold projectSimplex
  dsimp only
  rw [run, lastTrue]
  dsimp only
  rw [List.getD_eq_getElem?_getD, at_]
  rfl

end OmegaLb.CbfRuntime
