import OmegaLb.CoxDeBoor
import OmegaLb.Numerals

/-! b_splines of train_ppo_kan.py for one entry of its batch, over exact numbers. The threshold on
the width of a span tells a repeated knot from a span of the grid up to a grid of 10^9 spans. -/
namespace OmegaLb.KanLayer
open CoxDeBoor (Span basis basisNonneg basisSum indicator raised spanExists spanUnique supportFew)

variable {K : Type} [Field K]

structure KANLayer (K : Type) where
  gridSize : Nat
  splineOrder : Nat
  grid : List K
  nCoeff : Nat

/-- torch.linspace(-1, 1, steps + 1) -/
def linspace (steps : Nat) : List K := (List.range (steps + 1)).map fun (i : Nat) => -1 + 2 * (i : K) / steps

def KANLayer.init (gridSize splineOrder : Nat) : KANLayer K where
  gridSize := gridSize
  splineOrder := splineOrder
  grid :=
    let interior := linspace gridSize
    List.replicate splineOrder (interior.headD 0) ++ interior ++
      List.replicate splineOrder (interior.getLastD 0)
  nCoeff := gridSize + splineOrder

section Model
variable [LinearOrder K]

/-- The basis of order 0 with the right end in the last span of the interior. -/
def KANLayer.orderZero (layer : KANLayer K) (x : K) : List K :=
  let spans := List.zipWith (fun left right => if left ≤ x ∧ x < right then (1 : K) else 0)
    layer.grid.dropLast layer.grid.tail
  let lastProper := layer.nCoeff - 1
  let atRight : K := if x = layer.grid.getLastD 0 then 1 else 0
  spans.modify lastProper (· + atRight)

/-- One side of the recursion at one function; a degenerate span counts for nothing. -/
def side (num width b : K) : K :=
  if |width| > 1 / 10 ^ 10 then num / max width (1 / 10 ^ 10) * b else 0

def KANLayer.raise (layer : KANLayer K) (x : K) (below : List K) (k : Nat) : List K :=
  let n := below.length - 1
  let lg := layer.grid.take (n + 1)
  let rg := (layer.grid.drop k).take (n + 1)
  let left := List.zipWith (fun (knots : K × K) b => side (x - knots.1) (knots.2 - knots.1) b)
    (lg.dropLast.zip rg.dropLast) (below.take n)
  let right := List.zipWith (fun (knots : K × K) b => side (knots.2 - x) (knots.2 - knots.1) b)
    (lg.tail.zip rg.tail) ((below.drop 1).take n)
  List.zipWith (· + ·) left right

def KANLayer.bSplines (layer : KANLayer K) (x : K) : List K :=
  (List.range' 1 layer.splineOrder).foldl (layer.raise x) (layer.orderZero x)

/-- What is promised of the values of the functions at a point. -/
structure BasisValues (layer : KANLayer K) (values : List K) : Prop where
  length : values.length = layer.gridSize + layer.splineOrder
  nonneg : ∀ b ∈ values, 0 ≤ b
  whole : values.sum = 1
  few : values.countP (fun b => decide (b ≠ 0)) ≤ layer.splineOrder + 1

end Model

/-! ### The knots -/

def knot (gridSize splineOrder i : Nat) : K := -1 + 2 * (min (i - splineOrder) gridSize : Nat) / gridSize

theorem linspaceHead (steps : Nat) : (linspace steps : List K).headD 0 = -1 := by
  simp [linspace, List.range_succ_eq_map]

theorem linspaceLast (steps : Nat) : (linspace steps : List K).getLastD 0 = -1 + 2 * (steps : K) / steps := by
  simp [linspace, List.range_succ]

theorem gridKnots (gridSize splineOrder : Nat) : (KANLayer.init gridSize splineOrder : KANLayer K).grid =
    (List.range (gridSize + 1 + 2 * splineOrder)).map (knot gridSize splineOrder) := by
  have length : (linspace gridSize : List K).length = gridSize + 1 := by simp [linspace]
  refine List.ext_getElem ?_ fun i inside _ => ?_
  · simp [KANLayer.init, length]
    omega
  · simp only [KANLayer.init, linspaceHead, linspaceLast, List.length_append, List.length_replicate, length]
      at inside ⊢
    rw [List.getElem_map, List.getElem_range, knot, List.getElem_append]
    split
    · rw [List.getElem_append]
      split
      · rename_i early
        rw [List.length_replicate] at early
        rw [List.getElem_replicate, Nat.sub_eq_zero_of_le early.le, Nat.zero_min]
        simp
      · rename_i later here
        simp only [List.length_append, List.length_replicate, length] at here later
        simp only [linspace, List.getElem_map, List.getElem_range, List.length_replicate]
        rw [Nat.min_eq_left (by omega)]
    · rename_i late
      simp only [List.length_append, List.length_replicate, length] at late
      rw [List.getElem_replicate, Nat.min_eq_right (by omega)]

variable [LinearOrder K] [IsStrictOrderedRing K] {gridSize splineOrder : Nat}

theorem knotRising (gridSize splineOrder : Nat) : Monotone (knot gridSize splineOrder : Nat → K) := by
  intro i j order
  have steps : ((min (i - splineOrder) gridSize : Nat) : K) ≤ (min (j - splineOrder) gridSize : Nat) := by
    exact_mod_cast (by omega : min (i - splineOrder) gridSize ≤ min (j - splineOrder) gridSize)
  unfold knot
  gcongr

/-- Knots are equal or further apart than the threshold. -/
theorem knotApart (some_ : 1 ≤ gridSize) (fine : gridSize ≤ 10 ^ 9) {i j : Nat} (order : i ≤ j) :
    (knot gridSize splineOrder j : K) - knot gridSize splineOrder i = 0 ∨
      1 / 10 ^ 10 < (knot gridSize splineOrder j : K) - knot gridSize splineOrder i := by
  have size : (0 : K) < gridSize := by exact_mod_cast some_
  have most : (gridSize : K) ≤ 10 ^ 9 := by exact_mod_cast fine
  obtain ⟨steps, apart⟩ := Nat.exists_eq_add_of_le
    (show min (i - splineOrder) gridSize ≤ min (j - splineOrder) gridSize by omega)
  have width : (knot gridSize splineOrder j : K) - knot gridSize splineOrder i = 2 * (steps : K) / gridSize := by
    rw [knot, knot, apart]
    push_cast
    ring
  rw [width]
  rcases Nat.eq_zero_or_pos steps with none_ | some_
  · left
    rw [none_]
    simp
  · right
    have one : (1 : K) ≤ steps := by exact_mod_cast some_
    rw [lt_div_iff₀ size]
    linarith

/-! ### One level of the recursion -/

theorem sideShare {num width b : K} (apart : width = 0 ∨ 1 / 10 ^ 10 < width) :
    side num width b = num / width * b := by
  have least : (0 : K) < 1 / 10 ^ 10 := by positivity
  unfold side
  rcases apart with zero | wide
  · rw [zero, abs_zero, if_neg (not_lt.mpr least.le), div_zero, zero_mul]
  · rw [abs_of_pos (least.trans wide), if_pos wide, max_eq_left wide.le]

theorem raiseTable {layer : KANLayer K} {t b : Nat → K} {x : K} {knots functions k : Nat}
    (grid : layer.grid = (List.range knots).map t) (apart : ∀ i j, i ≤ j → t j - t i = 0 ∨ 1 / 10 ^ 10 < t j - t i)
    (level : functions + k = knots) (positive : 1 ≤ k) :
    layer.raise x ((List.range functions).map b) k = (List.range (functions - 1)).map (raised t x k b) := by
  refine List.ext_getElem ?_ fun j inside inside' => ?_
  · simp [KANLayer.raise, grid]
    omega
  · simp only [KANLayer.raise, grid, List.getElem_zipWith, List.getElem_zip, List.getElem_dropLast, List.getElem_tail,
      List.getElem_take, List.getElem_drop, List.getElem_map, List.getElem_range]
    rw [sideShare (apart _ _ (by omega)), sideShare (apart _ _ (by omega)), raised]
    have index : k + j = j + k := Nat.add_comm k j
    have next : k + (j + 1) = j + k + 1 := by omega
    rw [index, next, Nat.add_comm 1 j]

theorem levelTable {layer : KANLayer K} {t : Nat → K} {x : K} {knots m : Nat}
    (grid : layer.grid = (List.range knots).map t) (apart : ∀ i j, i ≤ j → t j - t i = 0 ∨ 1 / 10 ^ 10 < t j - t i)
    (zero : layer.orderZero x = (List.range (knots - 1)).map (basis t x m 0)) {k : Nat} (room : k + 1 ≤ knots) :
    (List.range' 1 k).foldl (layer.raise x) (layer.orderZero x) =
      (List.range (knots - 1 - k)).map (basis t x m k) := by
  induction k with
  | zero => exact zero
  | succ k ih =>
    rw [List.range'_concat, List.foldl_append, ih (Nat.le_of_succ_le room), List.foldl_cons, List.foldl_nil,
      Nat.one_mul, Nat.add_comm 1 k, raiseTable grid apart (by omega) (Nat.le_add_left 1 k), Nat.sub_sub]
    rfl

/-! ### The span of a point -/

omit [LinearOrder K] [IsStrictOrderedRing K] in
theorem knotFirst (gridSize splineOrder : Nat) : (knot gridSize splineOrder splineOrder : K) = -1 := by
  simp [knot]

theorem knotLast (some_ : 1 ≤ gridSize) {i : Nat} (late : splineOrder + gridSize ≤ i) :
    (knot gridSize splineOrder i : K) = 1 := by
  have size : (gridSize : K) ≠ 0 := by
    have positive : (0 : K) < gridSize := by exact_mod_cast some_
    exact positive.ne'
  rw [knot, Nat.min_eq_right (by omega)]
  field_simp
  norm_num

theorem knotMost (some_ : 1 ≤ gridSize) (i : Nat) : (knot gridSize splineOrder i : K) ≤ 1 := by
  rw [← knotLast some_ (Nat.le_max_left (splineOrder + gridSize) i)]
  exact knotRising gridSize splineOrder (Nat.le_max_right _ _)

theorem knotWide (some_ : 1 ≤ gridSize) {m : Nat} (first : splineOrder ≤ m) (last : m < splineOrder + gridSize) :
    (knot gridSize splineOrder m : K) < knot gridSize splineOrder (m + 1) := by
  have size : (0 : K) < gridSize := by exact_mod_cast some_
  have next : min (m + 1 - splineOrder) gridSize = min (m - splineOrder) gridSize + 1 := by omega
  rw [knot, knot, next]
  gcongr
  exact Nat.lt_succ_self _

theorem gridLast (some_ : 1 ≤ gridSize) :
    (KANLayer.init gridSize splineOrder : KANLayer K).grid.getLastD 0 = 1 := by
  rw [gridKnots, show gridSize + 1 + 2 * splineOrder = gridSize + 2 * splineOrder + 1 by omega, List.range_succ,
    List.map_append, List.map_singleton, List.getLastD_concat]
  exact knotLast some_ (by omega)

theorem orderZeroSpans (some_ : 1 ≤ gridSize) (x : K) : (KANLayer.init gridSize splineOrder).orderZero x =
    ((List.range (gridSize + 2 * splineOrder)).map fun j =>
      if knot gridSize splineOrder j ≤ x ∧ x < knot gridSize splineOrder (j + 1) then (1 : K) else 0).modify
        (gridSize + splineOrder - 1) (· + if x = 1 then 1 else 0) := by
  have spans : List.zipWith (fun left right => if left ≤ x ∧ x < right then (1 : K) else 0)
      (KANLayer.init gridSize splineOrder).grid.dropLast (KANLayer.init gridSize splineOrder).grid.tail =
        (List.range (gridSize + 2 * splineOrder)).map fun j =>
          if knot gridSize splineOrder j ≤ x ∧ x < knot gridSize splineOrder (j + 1) then (1 : K) else 0 := by
    rw [gridKnots]
    refine List.ext_getElem ?_ fun j _ _ => ?_
    · simp
    · simp only [List.getElem_zipWith, List.getElem_dropLast, List.getElem_tail, List.getElem_map, List.getElem_range]
  unfold KANLayer.orderZero
  rw [gridLast some_, spans]
  rfl

theorem orderZeroTable (splineOrder : Nat) (some_ : 1 ≤ gridSize) {x : K} (inside : -1 ≤ x ∧ x ≤ 1) :
    ∃ m, splineOrder ≤ m ∧ m < splineOrder + gridSize ∧ Span (knot gridSize splineOrder) m x ∧
      (KANLayer.init gridSize splineOrder : KANLayer K).orderZero x =
        (List.range (gridSize + 2 * splineOrder)).map (basis (knot gridSize splineOrder) x m 0) := by
  rw [orderZeroSpans some_]
  rcases eq_or_lt_of_le inside.2 with rfl | before
  · refine ⟨splineOrder + gridSize - 1, by omega, by omega, ⟨?_, knotMost some_ _, ?_⟩, ?_⟩
    · exact knotWide some_ (by omega) (by omega)
    · rw [knotLast some_ (by omega)]
    · refine List.ext_getElem (by simp) fun j _ _ => ?_
      have beyond : ¬ (knot gridSize splineOrder j ≤ (1 : K) ∧ (1 : K) < knot gridSize splineOrder (j + 1)) :=
        fun both => absurd both.2 (not_lt.mpr (knotMost some_ _))
      simp only [List.getElem_modify, List.getElem_map, List.getElem_range, basis, indicator, if_neg beyond, if_true,
        zero_add, Nat.add_comm gridSize splineOrder, eq_comm]
  · have rising := knotRising (K := K) gridSize splineOrder
    obtain ⟨m, first, last, low, high⟩ := spanExists (t := (knot gridSize splineOrder : Nat → K))
      (Nat.le_add_right splineOrder gridSize) (knotFirst (K := K) gridSize splineOrder ▸ inside.1)
      ((knotLast (K := K) some_ (Nat.le_refl _)).symm ▸ before)
    refine ⟨m, first, last, ⟨knotWide some_ first last, low, high.le⟩, ?_⟩
    refine List.ext_getElem (by simp) fun j _ _ => ?_
    simp only [List.getElem_modify, List.getElem_map, List.getElem_range, basis, indicator,
      spanUnique rising low high, if_neg before.ne, add_zero, ite_self]

/-! ### The values -/

theorem bSplinesBasis (some_ : 1 ≤ gridSize) (fine : gridSize ≤ 10 ^ 9) (splineOrder : Nat) {x : K}
    (inside : -1 ≤ x ∧ x ≤ 1) :
    BasisValues (KANLayer.init gridSize splineOrder) ((KANLayer.init gridSize splineOrder).bSplines x) := by
  obtain ⟨m, first, last, span, zero⟩ := orderZeroTable splineOrder some_ inside
  have rising := knotRising (K := K) gridSize splineOrder
  have values : (KANLayer.init gridSize splineOrder).bSplines x =
      (List.range (gridSize + splineOrder)).map (basis (knot gridSize splineOrder) x m splineOrder) := by
    have spans : gridSize + 2 * splineOrder = gridSize + 1 + 2 * splineOrder - 1 := by omega
    rw [spans] at zero
    have level := levelTable (gridKnots gridSize splineOrder) (fun i j => knotApart some_ fine) zero
      (show splineOrder + 1 ≤ gridSize + 1 + 2 * splineOrder by omega)
    rwa [show gridSize + 1 + 2 * splineOrder - 1 - splineOrder = gridSize + splineOrder by omega] at level
  rw [values]
  refine ⟨by simp [KANLayer.init], ?_, ?_, (List.countP_map ..).trans_le (supportFew _)⟩
  · intro b member
    obtain ⟨j, _, rfl⟩ := List.mem_map.mp member
    exact basisNonneg rising span splineOrder j
  · exact basisSum rising span first (by omega)

/-- The right end, with the sizes that train_ppo_kan.py has by default. -/
theorem bSplinesBasisRight : BasisValues (KANLayer.init 5 3 : KANLayer ℚ) ((KANLayer.init 5 3).bSplines 1) :=
  bSplinesBasis (by decide) (by decide) 3 ⟨by norm_num, le_refl 1⟩

end OmegaLb.KanLayer
