import OmegaLb.Simplex

/-! The point of the probability simplex nearest to a vector: the vector, lowered by the one level
that leaves a mass of one. The coordinates above that level come first in a descending vector. -/
namespace OmegaLb.Simplex

variable {K : Type} [Field K] [LinearOrder K]

/-- The square of the Euclidean distance. -/
def distSq (v y : List K) : K := (List.zipWith (fun a b => (a - b) ^ 2) v y).sum

structure Nearest (v p : List K) : Prop where
  simplex : OnSimplex p
  aligned : p.length = v.length
  nearer : ∀ y, OnSimplex y → y.length = v.length → y ≠ p → distSq v p < distSq v y

omit [LinearOrder K] in
@[simp] theorem distSqCons (a b : K) (v y : List K) :
    distSq (a :: v) (b :: y) = (a - b) ^ 2 + distSq v y := by
  simp [distSq]

theorem clipLength (level : K) (v : List K) : (clip level v).length = v.length := List.length_map _

variable [IsStrictOrderedRing K]

theorem distSqNonneg (v y : List K) : 0 ≤ distSq v y := by
  apply List.sum_nonneg
  intro d member
  rw [← List.map_uncurry_zip_eq_zipWith] at member
  obtain ⟨⟨a, b⟩, _, rfl⟩ := List.mem_map.mp member
  exact sq_nonneg (a - b)

theorem distSqPositive {v y : List K} (aligned : y.length = v.length) (differ : y ≠ v) : 0 < distSq v y := by
  induction v generalizing y with
  | nil => exact absurd (List.length_eq_zero_iff.mp aligned) differ
  | cons a v ih =>
    obtain ⟨b, y, rfl⟩ := List.exists_cons_of_length_eq_add_one aligned
    rw [distSqCons]
    by_cases head : a = b
    · subst head
      have tail := ih (Nat.succ.inj aligned) fun same => differ (by rw [same])
      have first := sq_nonneg (a - a)
      linarith
    · have first : 0 < (a - b) ^ 2 := sq_pos_of_ne_zero (sub_ne_zero.mpr head)
      have rest := distSqNonneg v y
      linarith

/-! ### The level -/

theorem levelUnique {low high : K} {v : List K} (one : mass low v = 1) (other : mass high v = 1) : low = high :=
  le_antisymm (levelBound one other.le) (levelBound other one.le)

theorem levelSelf {v : List K} (simplex : OnSimplex v) : mass 0 v = 1 := by
  rw [massAbove simplex.nonneg, simplex.total]
  simp

omit [IsStrictOrderedRing K] in
theorem clipSelf {v : List K} (nonneg : ∀ x ∈ v, 0 ≤ x) : clip 0 v = v := by
  rw [clip]
  refine (List.map_congr_left fun x member => ?_).trans (List.map_id' v)
  rw [sub_zero, max_eq_left (nonneg x member)]

/-- What is cut off a coordinate is the level where anything is left of it, and the level at most
where nothing is; a point of the simplex is not negative in either case. -/
theorem cutOne (level a : K) {b : K} (nonneg : 0 ≤ b) :
    (a - max (a - level) 0) ^ 2 + (max (a - level) 0 - b) ^ 2 + 2 * level * (max (a - level) 0 - b) ≤
      (a - b) ^ 2 := by
  rcases le_total (a - level) 0 with below | above
  · rw [max_eq_right below]
    nlinarith [mul_nonneg nonneg (sub_nonneg.mpr (sub_nonpos.mp below))]
  · rw [max_eq_left above]
    nlinarith

theorem cutAll (level : K) {v y : List K} (aligned : y.length = v.length) (nonneg : ∀ b ∈ y, 0 ≤ b) :
    distSq v (clip level v) + distSq (clip level v) y + 2 * level * (mass level v - y.sum) ≤ distSq v y := by
  induction v generalizing y with
  | nil =>
    cases List.length_eq_zero_iff.mp aligned
    simp [distSq, clip]
  | cons a v ih =>
    obtain ⟨b, y, rfl⟩ := List.exists_cons_of_length_eq_add_one aligned
    obtain ⟨first, rest⟩ := List.forall_mem_cons.mp nonneg
    have head := cutOne level a first
    have tail := ih (Nat.succ.inj aligned) rest
    have split : clip level (a :: v) = max (a - level) 0 :: clip level v := rfl
    rw [split, distSqCons, distSqCons, distSqCons, massCons, List.sum_cons]
    linarith

theorem clipNearest {level : K} {v : List K} (one : mass level v = 1) : Nearest v (clip level v) where
  simplex := clipOnSimplex one
  aligned := clipLength level v
  nearer := by
    intro y simplex aligned differ
    have pythagoras := cutAll level aligned simplex.nonneg
    have apart := distSqPositive (aligned.trans (clipLength level v).symm) differ
    rw [one, simplex.total, sub_self, mul_zero, add_zero] at pythagoras
    linarith

/-! ### The tests of a descending vector -/

instance (before : List K) (x : K) : Decidable (Above before x) := inferInstanceAs (Decidable (_ < _))

def tests (before : List K) : List K → List Bool
  | [] => []
  | x :: rest => decide (Above before x) :: tests (before ++ [x]) rest

theorem aboveEarlier {before : List K} {x y : K} (order : y ≤ x) (above : Above (before ++ [x]) y) :
    Above before x := by
  unfold Above at above ⊢
  rw [List.sum_append, List.sum_singleton, List.length_append, List.length_singleton, sub_pos] at above
  push_cast at above
  have count : (0 : K) < before.length + 1 := by positivity
  rw [div_lt_iff₀ (by positivity)] at above
  rw [sub_pos, div_lt_iff₀ count]
  nlinarith

/-- Once a test fails, so do all that follow. -/
theorem testsFalse {before rest : List K} {x : K} (under : ¬ Above before x)
    (descending : (x :: rest).Pairwise (· ≥ ·)) :
    tests (before ++ [x]) rest = List.replicate rest.length false := by
  induction rest generalizing before x with
  | nil => rfl
  | cons y rest ih =>
    obtain ⟨below, later⟩ := List.pairwise_cons.mp descending
    have next : ¬ Above (before ++ [x]) y := fun above => under (aboveEarlier (below y List.mem_cons_self) above)
    rw [tests, decide_eq_false next, ih next later]
    rfl

theorem testsSplit {before rest : List K} {x : K} (above : Above before x)
    (descending : (x :: rest).Pairwise (· ≥ ·)) :
    ∃ early last late, x :: rest = early ++ last :: late ∧ Above (before ++ early) last ∧
      (∀ y later, late = y :: later → ¬ Above (before ++ early ++ [last]) y) ∧
      tests before (x :: rest) = List.replicate (early.length + 1) true ++ List.replicate late.length false := by
  induction rest generalizing before x with
  | nil =>
    refine ⟨[], x, [], rfl, by rwa [List.append_nil], fun _ _ empty => by contradiction, ?_⟩
    rw [tests, decide_eq_true above]
    rfl
  | cons y rest ih =>
    obtain ⟨below, later⟩ := List.pairwise_cons.mp descending
    by_cases next : Above (before ++ [x]) y
    · obtain ⟨early, last, late, split, above', under, run⟩ := ih next later
      refine ⟨x :: early, last, late, by rw [split, List.cons_append], by simpa using above', by simpa using under, ?_⟩
      rw [tests, decide_eq_true above, run]
      rfl
    · refine ⟨[], x, y :: rest, rfl, by rwa [List.append_nil], fun z _ same => ?_, ?_⟩
      · obtain ⟨rfl, _⟩ := List.cons.inj same
        rwa [List.append_nil]
      · have failing : tests before (x :: y :: rest) = decide (Above before x) ::
            decide (Above (before ++ [x]) y) :: tests (before ++ [x] ++ [y]) rest := rfl
        rw [failing, decide_eq_true above, decide_eq_false next, testsFalse next later]
        rfl

/-- The tests that hold come first, and the last of them is where the level is taken. -/
theorem testsLast {u : List K} (descending : u.Pairwise (· ≥ ·)) (nonempty : u ≠ []) :
    ∃ early last late, LastAbove u early.length early last late ∧
      tests [] u = List.replicate (early.length + 1) true ++ List.replicate late.length false := by
  obtain ⟨x, rest, rfl⟩ := List.exists_cons_of_ne_nil nonempty
  obtain ⟨early, last, late, split, above, under, run⟩ := testsSplit (aboveFirst x) descending
  exact ⟨early, last, late, ⟨split, rfl, above, under⟩, run⟩

end OmegaLb.Simplex
