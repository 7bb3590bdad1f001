import OmegaLb.CbfRuntime
import OmegaLb.SimplexDrift

/-! The runtime projection takes weight from the overloaded backends only. A push down lowers the mass,
so the level of the next projection is not positive and nobody else falls. -/
namespace OmegaLb.CbfRuntime
open Simplex (OnSimplex clip mass push)

variable {K : Type} [Field K] [LinearOrder K]

/-- The caps that count: those of the call, or the projector's own for every backend. -/
def CBFProjector.limits (p : CBFProjector K) (n : Nat) (caps : Option (List K)) : List K :=
  caps.getD (List.replicate n p.cap)

def normalised (weights : List K) : List K :=
  if weights.sum ≤ 1 / 10 ^ 9 then uniform weights.length else weights.map (· / weights.sum)

/-- The weight of the backends whose load, the second of a row, exceeds their cap. -/
def overWeight (rows : List (K × K)) (w : List K) : K :=
  (List.zipWith (fun row x => if row.1 < row.2 then x else 0) rows w).sum

def underWeight (rows : List (K × K)) (w : List K) : K :=
  (List.zipWith (fun row x => if row.1 < row.2 then 0 else x) rows w).sum

structure Shed (rows : List (K × K)) (start w : List K) (fired : List Bool) : Prop where
  simplex : OnSimplex w
  aligned : w.length = rows.length
  kept : ∀ (i : Nat) (cap load x y : K), rows[i]? = some (cap, load) → load ≤ cap →
    start[i]? = some x → w[i]? = some y → x ≤ y
  marked : ∀ i : Nat, fired[i]? = some true → ∃ cap load, rows[i]? = some (cap, load) ∧ cap < load

/-! ### One push -/

def slacks (rows : List (K × K)) : List K := rows.map fun row => row.1 - row.2

omit [LinearOrder K] in
theorem barrierSlacks (caps loads : List K) : barrier caps loads = slacks (caps.zip loads) := by
  rw [barrier, slacks, ← List.map_uncurry_zip_eq_zipWith]
  rfl

variable [IsStrictOrderedRing K]

theorem slackNegative {cap load : K} : cap - load < 0 ↔ cap < load := sub_neg

theorem gradAt (p : CBFProjector K) (rows : List (K × K)) {i : Nat} {cap load : K}
    (at_ : rows[i]? = some (cap, load)) (within : load ≤ cap) : (p.grad (slacks rows))[i]? = some 0 := by
  rw [CBFProjector.grad, slacks, List.getElem?_map, List.getElem?_map, at_]
  exact congrArg some (if_neg (not_lt.mpr (sub_nonneg.mpr within)))

theorem gradNonneg (p : CBFProjector K) (strength : 0 ≤ p.lam) (h : List K) : ∀ d ∈ p.grad h, 0 ≤ d := by
  intro d member
  obtain ⟨x, _, rfl⟩ := List.mem_map.mp member
  split
  · exact mul_nonneg strength (by linarith)
  · exact le_refl 0

theorem massPushed {t : K} (rate : 0 ≤ t) {g w : List K} (down : ∀ d ∈ g, 0 ≤ d)
    (aligned : g.length = w.length) : mass 0 (push t g w) ≤ mass 0 w := by
  induction w generalizing g with
  | nil =>
    cases List.length_eq_zero_iff.mp aligned
    exact le_refl _
  | cons x w ih =>
    obtain ⟨d, g, rfl⟩ := List.exists_cons_of_length_eq_add_one aligned
    obtain ⟨first, rest⟩ := List.forall_mem_cons.mp down
    have tail := ih rest (Nat.succ.inj aligned)
    have head : max (x - t * d - 0) 0 ≤ max (x - 0) 0 :=
      max_le_max_right 0 (by linarith [mul_nonneg rate first])
    have split : push t (d :: g) (x :: w) = (x - t * d) :: push t g w := rfl
    rw [split, Simplex.massCons, Simplex.massCons]
    linarith

/-- One round for a point of the simplex: a level that is not positive, taken off what is pushed. -/
theorem moveLevel (p : CBFProjector K) (strength : 0 ≤ p.lam) (rate : 0 ≤ p.lr) {h w : List K}
    (simplex : OnSimplex w) (aligned : w.length = h.length) :
    ∃ theta, theta ≤ 0 ∧ mass theta (push p.lr (p.grad h) w) = 1 ∧
      p.move h w = clip theta (push p.lr (p.grad h) w) := by
  have length : (p.grad h).length = w.length := by simp [CBFProjector.grad, aligned]
  have nonempty := Simplex.pushNonempty (t := p.lr) length (Simplex.simplexNonempty simplex)
  obtain ⟨theta, one, same⟩ := projectSimplexClip nonempty
  refine ⟨theta, Simplex.levelBound one ?_, one, same⟩
  rw [← Simplex.levelSelf simplex]
  exact massPushed rate (gradNonneg p strength h) length

theorem moveShed (p : CBFProjector K) (strength : 0 ≤ p.lam) (rate : 0 ≤ p.lr) {rows : List (K × K)}
    {start w : List K} {fired : List Bool} (shed : Shed rows start w fired) :
    Shed rows start (p.move (slacks rows) w) fired := by
  have aligned : w.length = (slacks rows).length := by simp [slacks, shed.aligned]
  have length : (p.grad (slacks rows)).length = w.length := by simp [CBFProjector.grad, aligned]
  obtain ⟨theta, low, one, same⟩ := moveLevel p strength rate shed.simplex aligned
  rw [same]
  refine ⟨Simplex.clipOnSimplex one, ?_, fun i cap load x y at_ within first last => ?_, shed.marked⟩
  · rw [Simplex.clipLength, Simplex.pushLength length, shed.aligned]
  · have inside : i < w.length := by
      rw [shed.aligned]
      exact (List.getElem?_eq_some_iff.mp at_).1
    have before := shed.kept i cap load x w[i] at_ within first (List.getElem?_eq_getElem inside)
    rw [clip, push, List.getElem?_map, List.getElem?_zipWith, List.getElem?_eq_getElem inside,
      gradAt p rows at_ within] at last
    have value : max (w[i] - p.lr * 0 - theta) 0 = y := Option.some.inj last
    rw [← value]
    exact le_max_of_le_left (by linarith)

/-! ### The rounds -/

theorem firedOver {rows : List (K × K)} {fired : List Bool}
    (marked : ∀ i : Nat, fired[i]? = some true → ∃ cap load, rows[i]? = some (cap, load) ∧ cap < load) (i : Nat)
    (set : (List.zipWith (· || ·) fired ((slacks rows).map fun x => decide (x < 0)))[i]? = some true) :
    ∃ cap load, rows[i]? = some (cap, load) ∧ cap < load := by
  obtain ⟨before, now, was, is, either⟩ := List.getElem?_zipWith_eq_some.mp set
  rcases (Bool.or_eq_true _ _).mp either with rfl | rfl
  · exact marked i was
  · rw [slacks, List.map_map, List.getElem?_map] at is
    obtain ⟨⟨cap, load⟩, at_, above⟩ := Option.map_eq_some_iff.mp is
    exact ⟨cap, load, at_, slackNegative.mp (of_decide_eq_true above)⟩

theorem loopShed (p : CBFProjector K) (strength : 0 ≤ p.lam) (rate : 0 ≤ p.lr) {rows : List (K × K)}
    {start : List K} (left iters : Nat) {w : List K} {fired : List Bool} (shed : Shed rows start w fired) :
    Shed rows start (p.loop (slacks rows) left iters w fired).weights
      (p.loop (slacks rows) left iters w fired).fired := by
  induction left generalizing iters w fired with
  | zero => exact shed
  | succ left ih =>
    have moved := moveShed p strength rate shed
    have next : Shed rows start (p.move (slacks rows) w)
        (List.zipWith (· || ·) fired ((slacks rows).map fun x => decide (x < 0))) :=
      ⟨moved.simplex, moved.aligned, moved.kept, firedOver shed.marked⟩
    rw [CBFProjector.loop]
    dsimp only
    split
    · split
      · exact next
      · exact ih (iters + 1) next
    · exact shed

theorem noneOver {rows : List (K × K)} (within : ∀ row ∈ rows, row.2 ≤ row.1) :
    ((slacks rows).map fun x => decide (x < 0)).any id = false := by
  rw [List.any_map, slacks, List.any_map]
  refine List.any_eq_false.mpr fun row member above => ?_
  exact absurd (slackNegative.mp (of_decide_eq_true above)) (not_lt.mpr (within row member))

theorem loopIdle (p : CBFProjector K) {rows : List (K × K)} (within : ∀ row ∈ rows, row.2 ≤ row.1)
    (left iters : Nat) (w : List K) (fired : List Bool) : (p.loop (slacks rows) left iters w fired).weights = w := by
  cases left with
  | zero => rfl
  | succ left =>
    rw [CBFProjector.loop]
    dsimp only
    rw [noneOver within]
    rfl

/-! ### Where the rounds begin -/

theorem startSimplex {weights : List K} (nonempty : weights ≠ []) : OnSimplex (startWeights weights) := by
  unfold startWeights
  dsimp only
  split
  · rename_i large
    refine Simplex.shareOnSimplex (fun x member => ?_) (lt_trans (by positivity) large)
    obtain ⟨y, _, rfl⟩ := List.mem_map.mp member
    exact le_max_right y 0
  · exact Simplex.evenOnSimplex (List.length_pos_iff.mpr nonempty)

omit [IsStrictOrderedRing K] in
theorem startLength (weights : List K) : (startWeights weights).length = weights.length := by
  unfold startWeights uniform
  dsimp only
  split <;> simp

omit [IsStrictOrderedRing K] in
theorem startNormalised {weights : List K} (nonneg : ∀ x ∈ weights, 0 ≤ x) :
    startWeights weights = normalised weights := by
  have same : (weights.map fun x => max x 0) = weights :=
    (List.map_congr_left fun x member => max_eq_left (nonneg x member)).trans (List.map_id' weights)
  unfold startWeights normalised
  dsimp only
  rw [same]
  split
  · rename_i large
    rw [if_neg (not_le.mpr large)]
  · rename_i small
    rw [if_pos (not_lt.mp small)]

/-! ### What the others gain the violators lose -/

omit [IsStrictOrderedRing K] in
theorem overUnder {rows : List (K × K)} {w : List K} (aligned : w.length = rows.length) :
    overWeight rows w + underWeight rows w = w.sum := by
  induction rows generalizing w with
  | nil =>
    cases List.length_eq_zero_iff.mp aligned
    simp [overWeight, underWeight]
  | cons row rows ih =>
    obtain ⟨x, w, rfl⟩ := List.exists_cons_of_length_eq_add_one aligned
    have tail := ih (Nat.succ.inj aligned)
    have above : overWeight (row :: rows) (x :: w) = (if row.1 < row.2 then x else 0) + overWeight rows w :=
      List.sum_cons
    have under : underWeight (row :: rows) (x :: w) = (if row.1 < row.2 then 0 else x) + underWeight rows w :=
      List.sum_cons
    rw [above, under, List.sum_cons, ← tail]
    split <;> ring

theorem underRises {rows : List (K × K)} {start w : List K} (first : start.length = rows.length)
    (last : w.length = rows.length)
    (kept : ∀ (i : Nat) (cap load x y : K), rows[i]? = some (cap, load) → load ≤ cap →
      start[i]? = some x → w[i]? = some y → x ≤ y) : underWeight rows start ≤ underWeight rows w := by
  induction rows generalizing start w with
  | nil =>
    cases List.length_eq_zero_iff.mp first
    cases List.length_eq_zero_iff.mp last
    exact le_refl _
  | cons row rows ih =>
    obtain ⟨x, start, rfl⟩ := List.exists_cons_of_length_eq_add_one first
    obtain ⟨y, w, rfl⟩ := List.exists_cons_of_length_eq_add_one last
    have tail := ih (Nat.succ.inj first) (Nat.succ.inj last) fun i => kept (i + 1)
    have split (x : K) (w : List K) :
        underWeight (row :: rows) (x :: w) = (if row.1 < row.2 then 0 else x) + underWeight rows w := List.sum_cons
    rw [split, split]
    refine add_le_add ?_ tail
    split
    · exact le_refl 0
    · rename_i within
      exact kept 0 row.1 row.2 x y rfl (not_lt.mp within) rfl rfl

theorem shedViolators {rows : List (K × K)} {start w : List K} {fired : List Bool} (simplex : OnSimplex start)
    (aligned : start.length = rows.length) (shed : Shed rows start w fired) :
    overWeight rows w ≤ overWeight rows start := by
  have before := overUnder aligned
  have after := overUnder shed.aligned
  have rises := underRises aligned shed.aligned shed.kept
  rw [simplex.total] at before
  rw [shed.simplex.total] at after
  linarith

theorem projectSheds (p : CBFProjector K) (strength : 0 ≤ p.lam) (rate : 0 ≤ p.lr) {weights loads : List K}
    (nonneg : ∀ x ∈ weights, 0 ≤ x) (nonempty : weights ≠ []) (caps : Option (List K))
    (counted : loads.length = weights.length)
    (capped : (p.limits weights.length caps).length = weights.length) :
    let rows := (p.limits weights.length caps).zip loads
    let result := p.projectFull weights loads caps
    OnSimplex result.weights ∧ result.weights.length = weights.length ∧
    ((∀ row ∈ rows, row.2 ≤ row.1) → result.weights = normalised weights) ∧
    (∀ (i : Nat) (cap load x y : K), rows[i]? = some (cap, load) → load ≤ cap →
      (normalised weights)[i]? = some x → result.weights[i]? = some y → x ≤ y) ∧
    overWeight rows result.weights ≤ overWeight rows (normalised weights) ∧
    ∀ i : Nat, result.fired[i]? = some true → ∃ cap load, rows[i]? = some (cap, load) ∧ cap < load := by
  intro rows result
  have simplex := startSimplex nonempty
  have length : rows.length = weights.length := by simp [rows, counted, capped]
  have aligned : (startWeights weights).length = rows.length := (startLength weights).trans length.symm
  have loop : result = p.loop (slacks rows) p.maxIter.toNat 0 (startWeights weights)
      (List.replicate weights.length false) := by
    rw [← barrierSlacks]
    rfl
  have begin_ : Shed rows (startWeights weights) (startWeights weights) (List.replicate weights.length false) := by
    refine ⟨simplex, aligned, fun i cap load x y _ _ first last => ?_, fun i set => ?_⟩
    · exact (Option.some.inj (first.symm.trans last)).le
    · exact absurd (List.eq_of_mem_replicate (List.mem_of_getElem? set)) (by simp)
  have shed := loopShed p strength rate p.maxIter.toNat 0 begin_
  rw [← loop] at shed
  rw [← startNormalised nonneg]
  refine ⟨shed.simplex, shed.aligned.trans length, fun within => ?_, shed.kept,
    shedViolators simplex aligned shed, shed.marked⟩
  rw [loop, loopIdle p within]

theorem hotFirstSheds :
    let p : CBFProjector ℚ := CBFProjector.init
    let rows := (p.limits 2 none).zip [9 / 10, 1 / 10]
    overWeight rows (p.projectFull [2, 1] [9 / 10, 1 / 10] none).weights ≤ overWeight rows (normalised [2, 1]) := by
  intro p rows
  have strength : 0 ≤ p.lam := by decide +kernel
  have rate : 0 ≤ p.lr := by decide +kernel
  have nonneg : ∀ x ∈ ([2, 1] : List ℚ), 0 ≤ x := by decide +kernel
  have counted : ([9 / 10, 1 / 10] : List ℚ).length = ([2, 1] : List ℚ).length := rfl
  exact (projectSheds p strength rate nonneg (by simp) none counted rfl).2.2.2.2.1

end OmegaLb.CbfRuntime
