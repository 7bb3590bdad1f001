import OmegaLb.Numerals
import Mathlib.Algebra.BigOperators.Group.List.Basic
import Mathlib.Algebra.BigOperators.Ring.List
import Mathlib.Algebra.Order.BigOperators.Group.List
import Mathlib.Algebra.Order.Field.Basic
import Mathlib.Tactic.Linarith
import Mathlib.Tactic.Ring

/-! Vectors lowered by one level and cut off at zero. The mass that is left falls as the
level rises, so a mass bounds a level, and the scan of a descending vector finds the level
that leaves a mass of one, which is a point of the probability simplex. -/
namespace OmegaLb.Simplex

variable {K : Type} [Field K] [LinearOrder K]

structure OnSimplex (w : List K) : Prop where
  nonneg : ∀ x ∈ w, 0 ≤ x
  total : w.sum = 1

def clip (level : K) (v : List K) : List K := v.map fun x => max (x - level) 0

def mass (level : K) (v : List K) : K := (clip level v).sum

/-! ### Mass and level -/

@[simp] theorem massNil (level : K) : mass level [] = 0 := rfl

@[simp] theorem massCons (level x : K) (v : List K) :
    mass level (x :: v) = max (x - level) 0 + mass level v := by
  simp [mass, clip]

theorem massAppend (level : K) (v u : List K) :
    mass level (v ++ u) = mass level v + mass level u := by
  simp [mass, clip]

theorem massPerm (level : K) {v u : List K} (same : v.Perm u) : mass level v = mass level u :=
  (same.map _).sum_eq

theorem clipOnSimplex {level : K} {v : List K} (one : mass level v = 1) :
    OnSimplex (clip level v) where
  nonneg := by
    intro x member
    obtain ⟨y, _, same⟩ := List.mem_map.mp member
    exact same ▸ le_max_right _ _
  total := one

variable [IsStrictOrderedRing K]

omit [IsStrictOrderedRing K] in
theorem simplexNonempty {v : List K} (simplex : OnSimplex v) : v ≠ [] := by
  rintro rfl
  exact absurd simplex.total (by simp)

/-- The shares of a total that is not all zero. -/
theorem shareOnSimplex {v : List K} (nonneg : ∀ x ∈ v, 0 ≤ x) (positive : 0 < v.sum) :
    OnSimplex (v.map (· / v.sum)) where
  nonneg := by
    intro x member
    obtain ⟨y, inside, rfl⟩ := List.mem_map.mp member
    exact div_nonneg (nonneg y inside) positive.le
  total := by
    simp only [div_eq_mul_inv]
    rw [List.sum_map_mul_right, List.map_id', mul_inv_cancel₀ positive.ne']

theorem evenOnSimplex {n : Nat} (some_ : 0 < n) : OnSimplex (List.replicate n (1 / (n : K))) where
  nonneg := by
    intro x member
    rw [List.eq_of_mem_replicate member]
    positivity
  total := by
    have count : (n : K) ≠ 0 := Nat.cast_ne_zero.mpr some_.ne'
    rw [List.sum_replicate, nsmul_eq_mul, mul_one_div_cancel count]

theorem mixOnSimplex {v u : List K} {t : K} (low : 0 ≤ t) (high : t ≤ 1) (aligned : v.length = u.length)
    (left : OnSimplex v) (right : OnSimplex u) :
    OnSimplex (List.zipWith (fun x y => t * x + (1 - t) * y) v u) where
  nonneg := by
    intro z member
    rw [← List.map_uncurry_zip_eq_zipWith] at member
    obtain ⟨⟨x, y⟩, inside, rfl⟩ := List.mem_map.mp member
    obtain ⟨atX, atY⟩ := List.of_mem_zip inside
    have first := mul_nonneg low (left.nonneg x atX)
    have second := mul_nonneg (sub_nonneg.mpr high) (right.nonneg y atY)
    exact add_nonneg first second
  total := by
    have split : (List.zipWith (fun x y => t * x + (1 - t) * y) v u).sum =
        t * v.sum + (1 - t) * u.sum := by
      clear left right
      induction v generalizing u with
      | nil =>
        cases List.length_eq_zero_iff.mp aligned.symm
        simp
      | cons x v ih =>
        obtain ⟨y, u, rfl⟩ := List.exists_cons_of_length_eq_add_one aligned.symm
        rw [List.zipWith_cons_cons, List.sum_cons, List.sum_cons, List.sum_cons,
          ih (Nat.succ.inj aligned)]
        ring
    rw [split, left.total, right.total]
    ring

/-! ### One entry lowered -/

omit [LinearOrder K] [IsStrictOrderedRing K] in
theorem sumSet {v : List K} {i : Nat} {x : K} (at_ : v[i]? = some x) (y : K) :
    (v.set i y).sum = v.sum + (y - x) := by
  obtain ⟨inside, rfl⟩ := List.getElem?_eq_some_iff.mp at_
  rw [List.sum_set', dif_pos inside, neg_add_eq_sub]

/-- The lowered entry has no larger a share of the smaller total. -/
theorem shareLowered {v : List K} {i : Nat} {x y : K} (nonneg : ∀ z ∈ v, 0 ≤ z) (at_ : v[i]? = some x)
    (lower : y ≤ x) (positive : 0 < (v.set i y).sum) : y / (v.set i y).sum ≤ x / v.sum := by
  have total := sumSet at_ y
  have most : x ≤ v.sum := List.single_le_sum nonneg x (List.mem_of_getElem? at_)
  have whole : 0 < v.sum := by linarith
  rw [div_le_div_iff₀ positive whole, total]
  have gap := mul_nonneg (sub_nonneg.mpr lower) (sub_nonneg.mpr most)
  linarith

theorem shareRaised {v : List K} {i : Nat} {x y z : K} (at_ : v[i]? = some x) (lower : y ≤ x)
    (positive : 0 < (v.set i y).sum) (nonneg : 0 ≤ z) : z / v.sum ≤ z / (v.set i y).sum := by
  have total := sumSet at_ y
  exact div_le_div_of_nonneg_left nonneg positive (by linarith)

theorem massAbove {level : K} {v : List K} (above : ∀ x ∈ v, level ≤ x) :
    mass level v = v.sum - v.length * level := by
  induction v with
  | nil => simp
  | cons x v ih =>
    obtain ⟨first, rest⟩ := List.forall_mem_cons.mp above
    rw [massCons, ih rest, max_eq_left (sub_nonneg.mpr first), List.sum_cons, List.length_cons]
    push_cast
    ring

theorem massBelow {level : K} {v : List K} (below : ∀ x ∈ v, x ≤ level) : mass level v = 0 := by
  induction v with
  | nil => rfl
  | cons x v ih =>
    obtain ⟨first, rest⟩ := List.forall_mem_cons.mp below
    rw [massCons, ih rest, max_eq_right (sub_nonpos.mpr first), add_zero]

theorem massAntitone {low high : K} (order : low ≤ high) (v : List K) : mass high v ≤ mass low v := by
  induction v with
  | nil => exact le_refl _
  | cons x v ih =>
    rw [massCons, massCons]
    exact add_le_add (max_le_max_right 0 (by linarith)) ih

theorem massStrict {low high : K} (order : low < high) {v : List K} (positive : 0 < mass high v) :
    mass high v < mass low v := by
  induction v with
  | nil => exact absurd positive (lt_irrefl 0)
  | cons x v ih =>
    rw [massCons] at positive ⊢
    rw [massCons]
    by_cases beyond : 0 < x - high
    · have head : max (x - high) 0 < max (x - low) 0 := by
        rw [max_eq_left beyond.le]
        exact lt_max_of_lt_left (by linarith)
      exact add_lt_add_of_lt_of_le head (massAntitone order.le v)
    · have gone : max (x - high) 0 = 0 := max_eq_right (not_lt.mp beyond)
      rw [gone, zero_add] at positive ⊢
      exact lt_add_of_nonneg_of_lt (le_max_right _ _) (ih positive)

theorem levelBound {level bound : K} {v : List K} (one : mass level v = 1)
    (most : mass bound v ≤ 1) : level ≤ bound := by
  by_contra above
  have less := massStrict (not_le.mp above) (one ▸ zero_lt_one)
  linarith

/-! ### The level of a descending vector -/

/-- The coordinate `x`, met after those of `before`, is above the level that would spread
the excess over both. -/
def Above (before : List K) (x : K) : Prop := 0 < x - (before.sum + x - 1) / (before.length + 1)

structure LastAbove (u : List K) (rho : Nat) (before : List K) (x : K) (after : List K) : Prop where
  split : u = before ++ x :: after
  position : rho = before.length
  above : Above before x
  last : ∀ y rest, after = y :: rest → ¬ Above (before ++ [x]) y

theorem aboveFirst (x : K) : Above [] x := by
  simp [Above]

omit [IsStrictOrderedRing K] in
theorem lastAboveNew {u : List K} {y : K} (above : Above u y) :
    LastAbove (u ++ [y]) u.length u y [] where
  split := rfl
  position := rfl
  above := above
  last := fun _ _ empty => by contradiction

omit [IsStrictOrderedRing K] in
theorem lastAboveOld {u : List K} {rho : Nat} {before : List K} {x : K} {after : List K}
    (found : LastAbove u rho before x after) {y : K} (under : ¬ Above u y) :
    LastAbove (u ++ [y]) rho before x (after ++ [y]) where
  split := by rw [found.split, List.append_assoc, List.cons_append]
  position := found.position
  above := found.above
  last := by
    intro z rest same
    cases after with
    | nil =>
      obtain ⟨rfl, _⟩ := List.cons.inj same
      exact found.split ▸ under
    | cons next later =>
      obtain ⟨rfl, _⟩ := List.cons.inj same
      exact found.last next later rfl

theorem underLevel {before : List K} {x y : K} (under : ¬ Above (before ++ [x]) y) :
    y ≤ (before.sum + x - 1) / (before.length + 1) := by
  unfold Above at under
  rw [not_lt, sub_nonpos, List.sum_append, List.sum_singleton, List.length_append,
    List.length_singleton] at under
  push_cast at under
  rw [le_div_iff₀ (by positivity)] at under ⊢
  linarith

theorem massLastAbove {u : List K} {rho : Nat} {before : List K} {x : K} {after : List K}
    (descending : u.Pairwise (· ≥ ·)) (found : LastAbove u rho before x after) :
    mass ((before.sum + x - 1) / (before.length + 1)) u = 1 := by
  obtain ⟨split, _, above, last⟩ := found
  set level := (before.sum + x - 1) / (before.length + 1) with level_def
  have count : (0 : K) < before.length + 1 := by positivity
  have spread : level * (before.length + 1) = before.sum + x - 1 := div_mul_cancel₀ _ count.ne'
  have beyond : level < x := by
    unfold Above at above
    linarith
  rw [split, List.pairwise_append] at descending
  obtain ⟨_, ordered, across⟩ := descending
  have kept : mass level (before ++ [x]) = 1 := by
    rw [massAbove]
    · rw [List.sum_append, List.sum_singleton, List.length_append, List.length_singleton]
      push_cast
      linarith
    · intro y member
      rcases List.mem_append.mp member with early | now
      · exact beyond.le.trans (across y early x List.mem_cons_self)
      · rw [List.mem_singleton.mp now]
        exact beyond.le
  have cut : mass level after = 0 := by
    apply massBelow
    cases after with
    | nil => exact fun _ member => absurd member List.not_mem_nil
    | cons y rest =>
      have under : y ≤ level := underLevel (last y rest rfl)
      intro z member
      rcases List.mem_cons.mp member with same | later
      · exact same ▸ under
      · have next := (List.pairwise_cons.mp (List.pairwise_cons.mp ordered).2).1 z later
        exact le_trans next under
  rw [split, List.append_cons, massAppend, kept, cut, add_zero]

end OmegaLb.Simplex
