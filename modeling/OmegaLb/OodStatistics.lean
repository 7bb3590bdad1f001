import OmegaLb.Deviations
import OmegaLb.OodDetector

/-! What the detector has counted after any sequence of states: the mean and the squared deviations of the
states of its own length, coordinate by coordinate, over exact numbers. -/
namespace OmegaLb.Rl
open Deviations

def accepted (dim : Nat) (states : List (List ℚ)) : List (List ℚ) := states.filter fun state => state.length = dim

def coordinate (states : List (List ℚ)) (i : Nat) : List ℚ := states.map fun state => state.getD i 0

/-! ### What is promised -/

structure Statistics [GoRoots ℚ] (dim : Nat) (states : List (List ℚ)) (o : OODDetector ℚ) : Prop where
  count : o.n = states.length
  means : ∀ (i : Nat), i < dim → o.mean[i]? = some (mean (coordinate states i))
  deviations : ∀ (i : Nat), i < dim → o.m2[i]? = some (squares (coordinate states i))
  least : ∀ m2 ∈ o.m2, 0 ≤ m2
  constant : ∀ (i : Nat), i < dim → (o.m2[i]? = some 0 ↔ Constant (coordinate states i))
  skips : ∀ (state : List ℚ), state.length ≠ dim → o.update state = o
  early : states.length < 30 → ∀ (state : List ℚ), o.score state = 0

/-! ### A run -/

structure Counted (dim : Nat) (states : List (List ℚ)) (o : OODDetector ℚ) : Prop where
  sized : o.dim = dim
  count : o.n = states.length
  means : o.mean = (List.range dim).map fun i => mean (coordinate states i)
  deviations : o.m2 = (List.range dim).map fun i => squares (coordinate states i)

theorem welfordCounted (states : List (List ℚ)) (state : List ℚ) (i : Nat) :
    welford ((states.length : Int) + 1) (state.getD i 0) (mean (coordinate states i)) (squares (coordinate states i)) =
      (mean (coordinate (states ++ [state]) i), squares (coordinate (states ++ [state]) i)) := by
  have snoc : coordinate (states ++ [state]) i = coordinate states i ++ [state.getD i 0] := by simp [coordinate]
  have count : (coordinate states i).length = states.length := List.length_map _
  have moved := meanSnoc (coordinate states i) (state.getD i 0)
  rw [snoc, squaresSnoc, moved, count]
  simp only [welford, GoFloat.ofInt]
  push_cast
  rfl

theorem updateCounted {dim : Nat} {states : List (List ℚ)} {o : OODDetector ℚ} (counted : Counted dim states o)
    {state : List ℚ} (own : state.length = dim) : Counted dim (states ++ [state]) (o.update state) := by
  have listed : state = (List.range dim).map fun i => state.getD i 0 := by
    rw [← own]
    exact List.ext_getElem (by simp) fun i first second => by simp [first]
  have moved : (state.zip (o.mean.zip o.m2)).map (fun (x, mean, m2) => welford (o.n + 1) x mean m2) =
      (List.range dim).map fun i =>
        (mean (coordinate (states ++ [state]) i), squares (coordinate (states ++ [state]) i)) := by
    rw [listed, counted.means, counted.deviations, List.zip_map', List.zip_map', List.map_map, counted.count, ← listed]
    refine List.map_congr_left fun i _ => ?_
    exact welfordCounted states state i
  rw [OODDetector.update, if_neg (not_not.mpr (own.trans counted.sized.symm))]
  dsimp only
  rw [moved]
  refine ⟨counted.sized, ?_, List.map_map, List.map_map⟩
  rw [counted.count, List.length_append]
  rfl

theorem updatesCounted {dim : Nat} {before : List (List ℚ)} {o : OODDetector ℚ} (counted : Counted dim before o)
    (states : List (List ℚ)) : Counted dim (before ++ accepted dim states) (states.foldl OODDetector.update o) := by
  induction states generalizing before o with
  | nil => rwa [accepted, List.filter_nil, List.append_nil]
  | cons state rest ih =>
    rw [List.foldl_cons]
    by_cases own : state.length = dim
    · have next := ih (updateCounted counted own)
      rwa [accepted, List.filter_cons_of_pos (by simpa using own), ← accepted, List.append_cons]
    · rw [updateOtherLength (by rw [counted.sized]; exact own), accepted,
        List.filter_cons_of_neg (by simpa using own), ← accepted]
      exact ih counted

theorem newCounted (dim : Nat) (threshold : ℚ) : Counted dim [] (newOODDetector dim threshold) where
  sized := rfl
  count := rfl
  means := by
    simp [newOODDetector, coordinate, Deviations.mean, List.map_const', GoFloat.lit]
  deviations := by
    simp [newOODDetector, coordinate, Deviations.squares, squaresFrom, List.map_const', GoFloat.lit]

theorem updatesExact [GoRoots ℚ] (dim : Nat) (threshold : ℚ) (states : List (List ℚ)) :
    Statistics dim (accepted dim states) (states.foldl OODDetector.update (newOODDetector dim threshold)) := by
  have counted := updatesCounted (newCounted dim threshold) states
  rw [List.nil_append] at counted
  generalize states.foldl OODDetector.update (newOODDetector dim threshold) = o at counted ⊢
  generalize accepted dim states = taken at counted ⊢
  have each : ∀ i, i < dim → o.m2[i]? = some (squares (coordinate taken i)) := fun i inside => by
    rw [counted.deviations, List.getElem?_map, List.getElem?_range inside, Option.map_some]
  refine ⟨counted.count, fun i inside => ?_, each, fun m2 inside => ?_, fun i inside => ?_, fun state other => ?_,
    fun few state => ?_⟩
  · rw [counted.means, List.getElem?_map, List.getElem?_range inside, Option.map_some]
  · rw [counted.deviations] at inside
    obtain ⟨i, -, rfl⟩ := List.mem_map.mp inside
    exact squaresNonneg _
  · rw [each i inside, Option.some_inj]
    exact squaresZero _
  · exact updateOtherLength (by rw [counted.sized]; exact other)
  · unfold OODDetector.score
    have zero : (GoFloat.lit 0.0 : ℚ) = 0 := by norm_num [GoFloat.lit]
    have early : o.n < 30 := by rw [counted.count]; exact_mod_cast few
    rw [if_pos early, zero, ite_self]

end OmegaLb.Rl
