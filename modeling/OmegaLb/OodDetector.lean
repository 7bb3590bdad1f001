import OmegaLb.GoMath

/-! The detector of ood.go: running mean and variance of each coordinate, and how far a state
lies from them. A state of another length than the detector's is skipped by all of it. -/
namespace OmegaLb.Rl

structure OODDetector (F : Type) where
  threshold : F
  n : Int
  mean : List F
  m2 : List F
  dim : Nat

section Model
variable {F : Type} [GoMath F]

def newOODDetector (dim : Nat) (threshold : F) : OODDetector F where
  threshold := if GoMath.le threshold (GoFloat.lit 0) then GoFloat.lit 3.0 else threshold
  n := 0
  mean := List.replicate dim (GoFloat.lit 0)
  m2 := List.replicate dim (GoFloat.lit 0)
  dim := dim

def welford (n : Int) (x mean m2 : F) : F × F :=
  let delta := x - mean
  let mean := mean + delta / GoFloat.ofInt n
  let delta2 := x - mean
  (mean, m2 + delta * delta2)

def OODDetector.update (o : OODDetector F) (state : List F) : OODDetector F :=
  if state.length ≠ o.dim then o
  else
    let n := o.n + 1
    let moved := (state.zip (o.mean.zip o.m2)).map fun (x, mean, m2) => welford n x mean m2
    { o with n := n, mean := moved.map Prod.fst, m2 := moved.map Prod.snd }

def OODDetector.variance (o : OODDetector F) (m2 : F) : F :=
  if o.n > 1 then m2 / GoFloat.ofInt (o.n - 1) else GoFloat.lit 0.0

/-- The loop of Score: `maxZ` over the coordinates that vary. -/
def OODDetector.maxZ [GoRoots F] (o : OODDetector F) : F → List (F × F × F) → F
  | maxZ, [] => maxZ
  | maxZ, (x, mean, m2) :: rest =>
    let stddev := GoRoots.sqrt (o.variance m2)
    if GoFloat.gt (GoFloat.lit 1e-8) stddev then o.maxZ maxZ rest
    else
      let z := GoMath.abs (x - mean) / stddev
      o.maxZ (if GoFloat.gt z maxZ then z else maxZ) rest

def OODDetector.score [GoRoots F] (o : OODDetector F) (state : List F) : F :=
  if state.length ≠ o.dim then GoFloat.lit 0.0
  else if o.n < 30 then GoFloat.lit 0.0
  else o.maxZ (GoFloat.lit 0) (state.zip (o.mean.zip o.m2))

def OODDetector.isOOD [GoRoots F] (o : OODDetector F) (state : List F) : Bool :=
  GoFloat.gt (o.score state) o.threshold

def OODDetector.actionWeight (o : OODDetector F) (score nominalModelWeight : F) : F :=
  if GoMath.le score o.threshold then nominalModelWeight
  else if GoMath.le (GoFloat.lit 2 * o.threshold) score then GoFloat.lit 0.0
  else
    let t := (score - o.threshold) / o.threshold
    nominalModelWeight * (GoFloat.lit 1 - t)

def OODDetector.sampleCount (o : OODDetector F) : Int := o.n

def OODDetector.observe [GoRoots F] (o : OODDetector F) (state : List F) : OODDetector F :=
  if o.isOOD state then o else o.update state

end Model

/-! ### A state of another length -/

variable {F : Type} [GoMath F]

theorem updateOtherLength {o : OODDetector F} {state : List F} (other : state.length ≠ o.dim) :
    o.update state = o := if_pos other

theorem scoreOtherLength [GoRoots F] {o : OODDetector F} {state : List F}
    (other : state.length ≠ o.dim) : o.score state = GoFloat.lit 0.0 := if_pos other

theorem observeOtherLength [GoRoots F] {o : OODDetector F} {state : List F}
    (other : state.length ≠ o.dim) : o.observe state = o := by
  unfold OODDetector.observe
  split
  · rfl
  · exact updateOtherLength other

end OmegaLb.Rl
