import OmegaLb.GoRuntime
import Mathlib.Tactic.Linarith

/-! The float64 operations as exact operations followed by a rounding: the standard model, in
which numbers stay away from overflow and underflow. Integers of up to 53 bits are exact. -/
namespace OmegaLb

class GoRounding (F : Type) extends GoFloat F where
  value : F → ℚ
  rounded : ℚ → ℚ
  roundedMono : ∀ p q, p ≤ q → rounded p ≤ rounded q
  roundedNear : ∀ q, |rounded q - q| ≤ |q| / 2 ^ 53
  roundedInt : ∀ n : Int, |n| ≤ 2 ^ 53 → rounded n = n
  valueOfInt : ∀ n, value (ofInt n) = rounded n
  valueLit : ∀ q, value (lit q) = rounded q
  valueMul : ∀ a b : F, value (a * b) = rounded (value a * value b)
  valueDiv : ∀ a b : F, value b ≠ 0 → value (a / b) = rounded (value a / value b)
  gtValue : ∀ a b, gt a b = decide (value b < value a)
  ceilValue : ∀ a, ceil a = ⌈value a⌉

instance : GoRounding ℚ where
  value := id
  rounded := id
  roundedMono := fun _ _ le => le
  roundedNear := fun q => by
    simp only [id, sub_self, abs_zero]
    positivity
  roundedInt := fun _ _ => rfl
  valueOfInt := fun _ => rfl
  valueLit := fun _ => rfl
  valueMul := fun _ _ => rfl
  valueDiv := fun _ _ _ => rfl
  gtValue := fun _ _ => rfl
  ceilValue := fun _ => rfl

namespace GoRounding

variable (F : Type) [GoRounding F]

theorem roundedZero : rounded F 0 = 0 := by
  have exact_ := roundedInt (F := F) 0 (by norm_num)
  simpa using exact_

theorem roundedNonneg {q : ℚ} (nonneg : 0 ≤ q) : 0 ≤ rounded F q := by
  rw [← roundedZero F]
  exact roundedMono _ _ nonneg

theorem roundedBelow {q : ℚ} (nonneg : 0 ≤ q) : rounded F q ≤ q * (101 / 100) := by
  have near := (abs_le.mp (roundedNear (F := F) q)).2
  rw [abs_of_nonneg nonneg] at near
  linarith

end GoRounding
end OmegaLb
