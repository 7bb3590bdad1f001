import OmegaLb.SimplexNearest
import Mathlib.Tactic.FieldSimp

/-! A point of the simplex that the same vector pushes again and again, projected back each time,
is where one push of all of it would take it. The level is convex in the length of the push, so a
coordinate that was cut off stays cut off. -/
namespace OmegaLb.Simplex

variable {K : Type} [Field K] [LinearOrder K] [IsStrictOrderedRing K]

def push (t : K) (g w : List K) : List K := List.zipWith (fun x d => x - t * d) w g

omit [LinearOrder K] [IsStrictOrderedRing K] in
theorem pushLength {t : K} {g w : List K} (aligned : g.length = w.length) : (push t g w).length = w.length := by
  simp [push, aligned]

omit [LinearOrder K] [IsStrictOrderedRing K] in
theorem pushNonempty {t : K} {g w : List K} (aligned : g.length = w.length) (nonempty : w ≠ []) :
    push t g w ≠ [] := by
  rw [ne_eq, ← List.length_eq_zero_iff, pushLength aligned, List.length_eq_zero_iff]
  exact nonempty

omit [LinearOrder K] [IsStrictOrderedRing K] in
theorem pushNone {g w : List K} (aligned : g.length = w.length) : push 0 g w = w := by
  induction w generalizing g with
  | nil =>
    cases List.length_eq_zero_iff.mp aligned
    rfl
  | cons x w ih =>
    obtain ⟨d, g, rfl⟩ := List.exists_cons_of_length_eq_add_one aligned
    have rest : push 0 (d :: g) (x :: w) = (x - 0 * d) :: push 0 g w := rfl
    rw [rest, ih (Nat.succ.inj aligned), zero_mul, sub_zero]

theorem convexOne {a b x y : K} (left : 0 ≤ a) (right : 0 ≤ b) :
    max (a * x + b * y) 0 ≤ a * max x 0 + b * max y 0 := by
  have first := mul_nonneg left (le_max_right x 0)
  have second := mul_nonneg right (le_max_right y 0)
  have above := mul_le_mul_of_nonneg_left (le_max_left x 0) left
  have beside := mul_le_mul_of_nonneg_left (le_max_left y 0) right
  exact max_le (by linarith) (by linarith)

theorem massPush {s t level : K} (sLow : 0 ≤ s) (tLow : 0 ≤ t) (long : 0 < s + t) {g w : List K}
    (aligned : g.length = w.length) :
    mass (t / (s + t) * level) (push t g w) ≤
      s / (s + t) * mass 0 w + t / (s + t) * mass level (push (s + t) g w) := by
  induction w generalizing g with
  | nil =>
    cases List.length_eq_zero_iff.mp aligned
    simp [push]
  | cons x w ih =>
    obtain ⟨d, g, rfl⟩ := List.exists_cons_of_length_eq_add_one aligned
    have split (u : K) : push u (d :: g) (x :: w) = (x - u * d) :: push u g w := rfl
    have blend : x - t * d - t / (s + t) * level =
        s / (s + t) * (x - 0) + t / (s + t) * (x - (s + t) * d - level) := by
      field_simp
      ring
    have head := convexOne (x := x - 0) (y := x - (s + t) * d - level) (div_nonneg sLow long.le)
      (div_nonneg tLow long.le)
    have tail := ih (Nat.succ.inj aligned)
    rw [← blend] at head
    rw [split, split, massCons, massCons, massCons]
    linarith

/-- The level falls no faster than it has fallen so far. -/
theorem levelConvex {s t low high : K} (sLow : 0 ≤ s) (tLow : 0 ≤ t) {g w : List K}
    (aligned : g.length = w.length) (simplex : OnSimplex w) (one : mass low (push t g w) = 1)
    (more : mass high (push (s + t) g w) = 1) : (s + t) * low ≤ t * high := by
  rcases (add_nonneg sLow tLow).lt_or_eq with long | still
  · have share : s / (s + t) + t / (s + t) = 1 := by
      rw [← add_div, div_self long.ne']
    have most : mass (t / (s + t) * high) (push t g w) ≤
        s / (s + t) * mass 0 w + t / (s + t) * mass high (push (s + t) g w) := massPush sLow tLow long aligned
    rw [levelSelf simplex, more, mul_one, mul_one, share] at most
    have bound := levelBound one most
    rw [div_mul_eq_mul_div, le_div_iff₀ long] at bound
    linarith
  · have zero : t = 0 := by linarith
    rw [← still, zero, zero_mul, zero_mul]

theorem pushAgainOne {s t low high x d : K} (tLow : 0 ≤ t) (nonneg : 0 ≤ x)
    (convex : (s + t) * low ≤ t * high) (unmoved : t = 0 → low = 0) (sLow : 0 ≤ s) :
    max (max (x - t * d - low) 0 - s * d - (high - low)) 0 = max (x - (s + t) * d - high) 0 := by
  by_cases kept : 0 ≤ x - t * d - low
  · rw [max_eq_left kept]
    congr 1
    ring
  · have cut : x - t * d - low < 0 := not_le.mp kept
    have moving : 0 < t := by
      rcases tLow.lt_or_eq with long | still
      · exact long
      · rw [← still, unmoved still.symm] at cut
        linarith
    have drop : t * (low - high) ≤ t * (s * d) := by nlinarith
    have fall : low - high ≤ s * d := le_of_mul_le_mul_left drop moving
    rw [max_eq_right cut.le, max_eq_right (by linarith), max_eq_right (by linarith)]

theorem pushAgain {s t low high : K} (sLow : 0 ≤ s) (tLow : 0 ≤ t) {g w : List K}
    (aligned : g.length = w.length) (simplex : OnSimplex w) (one : mass low (push t g w) = 1)
    (more : mass high (push (s + t) g w) = 1) :
    clip (high - low) (push s g (clip low (push t g w))) = clip high (push (s + t) g w) := by
  have convex := levelConvex sLow tLow aligned simplex one more
  have unmoved : t = 0 → low = 0 := by
    rintro rfl
    rw [pushNone aligned] at one
    exact levelUnique one (levelSelf simplex)
  have nonneg := simplex.nonneg
  clear simplex one more
  induction w generalizing g with
  | nil =>
    cases List.length_eq_zero_iff.mp aligned
    rfl
  | cons x w ih =>
    obtain ⟨d, g, rfl⟩ := List.exists_cons_of_length_eq_add_one aligned
    obtain ⟨first, rest⟩ := List.forall_mem_cons.mp nonneg
    have head := pushAgainOne (d := d) tLow first convex unmoved sLow
    have tail := ih (Nat.succ.inj aligned) rest
    exact congrArg₂ List.cons head tail

omit [LinearOrder K] [IsStrictOrderedRing K] in
theorem pushOpposite (t : K) (g w : List K) : push (-t) (g.map (-·)) w = push t g w := by
  rw [push, push, List.zipWith_map_right]
  congr 1
  funext x d
  rw [neg_mul_neg]

/-- A push of either sign, once more after `k` of them. -/
theorem driftAgain (k : Nat) {t low high : K} {g w : List K} (aligned : g.length = w.length)
    (simplex : OnSimplex w) (one : mass low (push (k * t) g w) = 1)
    (more : mass high (push ((k + 1 : Nat) * t) g w) = 1) :
    clip (high - low) (push t g (clip low (push (k * t) g w))) = clip high (push ((k + 1 : Nat) * t) g w) := by
  have count : (0 : K) ≤ k := Nat.cast_nonneg k
  have next (u : K) : ((k + 1 : Nat) : K) * u = u + k * u := by
    push_cast
    ring
  rcases le_total 0 t with forward | back
  · rw [next] at more ⊢
    exact pushAgain forward (mul_nonneg count forward) aligned simplex one more
  · have away : 0 ≤ -t := neg_nonneg.mpr back
    have opposite (u : K) : push (u * t) g w = push (u * -t) (g.map (-·)) w := by
      rw [mul_neg, pushOpposite]
    rw [opposite] at one more
    rw [next] at more
    rw [opposite, opposite, next, ← pushOpposite]
    exact pushAgain away (mul_nonneg count away) ((List.length_map _).trans aligned) simplex one more

end OmegaLb.Simplex
