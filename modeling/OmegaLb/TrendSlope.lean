import OmegaLb.BoundedRing
import OmegaLb.LeastSquares
import OmegaLb.RingManager
import OmegaLb.GoMath

/-! linearSlope of ring.go over exact numbers, against the line of least error through the last ten
samples. -/
namespace OmegaLb.TrendSlope
open BoundedRing (lastAppend lastLength lastOf)
open Deviations (Constant)
open LeastSquares
open RingManager (linearSlope)

/-- The samples that count, each over its index. -/
def points (samples : List ℚ) : List (ℚ × ℚ) := (lastOf 10 samples).zipIdx.map fun (y, i) => ((i : ℚ), y)

/-! ### What is promised -/

structure Trend (samples : List ℚ) : Prop where
  window : (points samples).length = min samples.length 10
  quotient : linearSlope samples = numerator (points samples) / denominator (points samples)
  nonzero : denominator (points samples) ≠ 0
  least : ∃ (a : ℚ), ∀ (c d : ℚ), Minimises c d (points samples) ↔ c = a ∧ d = linearSlope samples
  raised : ∀ (k : ℚ), linearSlope (samples.map (· + k)) = linearSlope samples
  recent : 10 ≤ samples.length → ∀ (older : List ℚ), linearSlope (older ++ samples) = linearSlope samples

/-! ### The quotient -/

theorem sumsFold (ys : List ℚ) (start : Nat) (sx sy sxy sxx : ℚ) :
    (ys.zipIdx start).foldl (fun ((sx, sy, sxy, sxx) : ℚ × ℚ × ℚ × ℚ) (y, i) =>
      let x : ℚ := GoFloat.ofInt i
      (sx + x, sy + y, sxy + x * y, sxx + x * x)) (sx, sy, sxy, sxx) =
    let pts := (ys.zipIdx start).map fun (y, i) => ((i : ℚ), y)
    (sx + sumX pts, sy + sumY pts, sxy + sumXY pts, sxx + sumXX pts) := by
  induction ys generalizing start sx sy sxy sxx with
  | nil => simp [sumX, sumY, sumXY, sumXX]
  | cons y rest ih =>
    rw [List.zipIdx_cons, List.foldl_cons, ih]
    simp [sumX, sumY, sumXY, sumXX, add_assoc]

theorem slopeQuotient {samples : List ℚ} (enough : 2 ≤ samples.length) :
    linearSlope samples = fitSlope (points samples) := by
  have start : (if samples.length > 10 then samples.length - 10 else 0) = samples.length - 10 := by
    split <;> omega
  have few : GoFloat.gt (GoFloat.lit 2 : ℚ) (GoFloat.ofInt samples.length) = false := by
    have cast : (2 : ℚ) ≤ samples.length := by exact_mod_cast enough
    exact decide_eq_false (not_lt.mpr cast)
  have sums := sumsFold (lastOf 10 samples) 0 0 0 0 0
  rw [← points] at sums
  simp only [zero_add] at sums
  have length : (GoFloat.ofInt (lastOf 10 samples).length : ℚ) = (points samples).length := by simp [points]
  rw [linearSlope, few, start, ← lastOf, if_neg Bool.false_ne_true]
  simp only [ratLit, sums, length, ratIsZero]
  unfold fitSlope
  split
  · rename_i zero
    have nothing : denominator (points samples) = 0 := of_decide_eq_true zero
    rw [nothing, div_zero]
  · rfl

/-! ### The points -/

theorem pointsLength (samples : List ℚ) : (points samples).length = min samples.length 10 := by
  rw [points, List.length_map, List.length_zipIdx, lastLength]

theorem pointsApart {samples : List ℚ} (enough : 2 ≤ samples.length) :
    ¬ Constant ((points samples).map Prod.fst) := by
  have two : 2 ≤ (lastOf 10 samples).length := by
    rw [lastLength]
    omega
  obtain ⟨first, second, rest, shape⟩ : ∃ first second rest, lastOf 10 samples = first :: second :: rest := by
    match lastOf 10 samples, two with
    | first :: second :: rest, _ => exact ⟨first, second, rest, rfl⟩
  intro constant
  have same := constant 0 (by simp [points, shape]) 1 (by simp [points, shape])
  exact zero_ne_one same

theorem pointsRaised (k : ℚ) (samples : List ℚ) : points (samples.map (· + k)) = raised k (points samples) := by
  have last : lastOf 10 (samples.map (· + k)) = (lastOf 10 samples).map (· + k) := by
    rw [lastOf, lastOf, List.length_map, List.map_drop]
  rw [points, last, List.zipIdx_map, points, raised, List.map_map, List.map_map]
  rfl

theorem linearSlopeTrend {samples : List ℚ} (enough : 2 ≤ samples.length) : Trend samples where
  window := pointsLength samples
  quotient := slopeQuotient enough
  nonzero := denominatorNonzero (pointsApart enough)
  least := by
    refine ⟨fitIntercept (points samples), fun c d => ?_⟩
    rw [minimisesIff (pointsApart enough), slopeQuotient enough]
  raised k := by
    rw [slopeQuotient (by rwa [List.length_map]), slopeQuotient enough, pointsRaised, fitSlopeRaised]
  recent ten older := by
    have more : 2 ≤ (older ++ samples).length := by rw [List.length_append]; omega
    rw [slopeQuotient more, slopeQuotient enough, points, points, lastAppend ten]

theorem linearSlopeRecent : linearSlope ([40, 40] ++ [0, 2, 4, 6, 8, 10, 12, 14, 16, 18]) = (2 : ℚ) := by
  have trend := @linearSlopeTrend [0, 2, 4, 6, 8, 10, 12, 14, 16, 18] (by decide)
  rw [trend.recent (by decide)]
  decide +kernel

end OmegaLb.TrendSlope
