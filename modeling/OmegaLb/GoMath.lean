import OmegaLb.GoRuntime
import Mathlib.Tactic.Linarith

/-! The rest of the float64 operations: what the rl package takes from package math. Square
roots and exponentials are a class of their own, so that a result over the rationals holds
whatever these return. -/
namespace OmegaLb

/-- `le` is the comparison (false on a NaN), `round` the conversion int(math.Round(x)),
`float32` the conversion to float32 and back, and `isFinite` says that a value is neither a
NaN nor infinite. -/
class GoMath (F : Type) extends GoFloat F, Neg F where
  le : F → F → Bool
  max : F → F → F
  abs : F → F
  round : F → Int
  float32 : F → F
  isFinite : F → Bool

class GoRoots (F : Type) where
  sqrt : F → F
  exp : F → F

def sumFrom {F : Type} [GoFloat F] (start : F) (v : List F) : F := v.foldl (fun sum x => sum + x) start

/-- Halves are rounded away from zero. -/
def roundHalfAway (x : ℚ) : Int := if 0 ≤ x then ⌊x + 1 / 2⌋ else -⌊-x + 1 / 2⌋

instance : GoMath ℚ where
  toNeg := inferInstance
  le := fun a b => decide (a ≤ b)
  max := fun a b => if a ≤ b then b else a
  abs := fun a => if 0 ≤ a then a else -a
  round := roundHalfAway
  float32 := id
  isFinite := fun _ => true

section Rationals
variable (a b : ℚ)

@[simp] theorem ratOfInt (n : Int) : (GoFloat.ofInt n : ℚ) = n := rfl

@[simp] theorem ratLit (q : ℚ) : (GoFloat.lit q : ℚ) = q := rfl

@[simp] theorem ratGt : GoFloat.gt a b = decide (b < a) := rfl

@[simp] theorem ratIsZero : GoFloat.isZero a = decide (a = 0) := rfl

@[simp] theorem ratLe : GoMath.le a b = decide (a ≤ b) := rfl

@[simp] theorem ratMax : GoMath.max a b = max a b := (max_def a b).symm

@[simp] theorem ratAbs : GoMath.abs a = |a| := by
  by_cases nonneg : 0 ≤ a
  · exact (if_pos nonneg).trans (abs_of_nonneg nonneg).symm
  · exact (if_neg nonneg).trans (abs_of_neg (not_le.mp nonneg)).symm

@[simp] theorem ratRound : GoMath.round a = roundHalfAway a := rfl

@[simp] theorem ratFinite : GoMath.isFinite a = true := rfl

end Rationals

theorem sumFromSum (start : ℚ) (v : List ℚ) : sumFrom start v = start + v.sum := by
  induction v generalizing start with
  | nil => simp [sumFrom]
  | cons x rest ih =>
    rw [List.sum_cons, ← add_assoc]
    exact ih (start + x)

theorem roundInt (n : Int) : roundHalfAway n = n := by
  have half : ⌊(n : ℚ) + 1 / 2⌋ = n := by
    rw [Int.floor_eq_iff]
    constructor <;> linarith
  have below : ⌊-(n : ℚ) + 1 / 2⌋ = -n := by
    rw [Int.floor_eq_iff]
    push_cast
    constructor <;> linarith
  unfold roundHalfAway
  split
  · exact half
  · rw [below, neg_neg]

theorem roundNear (x : ℚ) : x - 1 / 2 ≤ roundHalfAway x ∧ roundHalfAway x ≤ x + 1 / 2 := by
  have up := Int.floor_le (x + 1 / 2)
  have upAbove := Int.lt_floor_add_one (x + 1 / 2)
  have down := Int.floor_le (-x + 1 / 2)
  have downAbove := Int.lt_floor_add_one (-x + 1 / 2)
  unfold roundHalfAway
  split
  · constructor <;> linarith
  · push_cast
    constructor <;> linarith

end OmegaLb
