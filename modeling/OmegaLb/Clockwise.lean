import Mathlib.Data.List.Rotate
import Mathlib.Data.Prod.Lex

/-! Entries at positions of a circle, read clockwise from a point: first those beyond the
point, then, past the top, those up to it. Nothing here names a system. -/
namespace OmegaLb.Clockwise

variable {α β : Type} [LinearOrder α]

/-- The order in which positions are met from `h` on: those beyond `h` before the others. -/
def arc (h p : α) : Bool ×ₗ α := toLex (decide (p ≤ h), p)

theorem arcInjective {h p q : α} (same : arc h p = arc h q) : p = q :=
  congrArg (fun x => (ofLex x).2) same

theorem arcBeyond {h p q : α} (beyond : h < p) (upTo : q ≤ h) : arc h p ≤ arc h q := by
  apply Prod.Lex.le_iff.mpr
  left
  simp [arc, not_le.mpr beyond, upTo]

theorem arcSide {h p q : α} (le : arc h p ≤ arc h q) (side : h < p ↔ h < q) : p ≤ q := by
  have same : (p ≤ h) = (q ≤ h) := propext (by rw [← not_lt, ← not_lt, side])
  rcases Prod.Lex.le_iff.mp le with lt | ⟨_, below⟩
  · simp [arc, same] at lt
  · exact below

theorem arcWithin {h p q : α} (side : h < p ↔ h < q) (le : p ≤ q) : arc h p ≤ arc h q := by
  apply Prod.Lex.le_iff.mpr
  right
  have same : (p ≤ h) = (q ≤ h) := propext (by rw [← not_lt, ← not_lt, side])
  exact ⟨by simp [arc, same], le⟩

def sortBy (key : β → α) (xs : List β) : List β := xs.mergeSort fun a b => decide (key a ≤ key b)

theorem sortBySorted (key : β → α) (xs : List β) :
    (sortBy key xs).Pairwise fun a b => key a ≤ key b := by
  have ordered := @List.pairwise_mergeSort β (fun a b => decide (key a ≤ key b))
    (fun a b c left right => by
      simp only [decide_eq_true_eq] at *
      exact le_trans left right)
    (fun a b => by
      simp only [Bool.or_eq_true, decide_eq_true_eq]
      exact le_total (key a) (key b)) xs
  exact ordered.imp fun le => of_decide_eq_true le

variable (place : β → α)

def fromPoint (h : α) (ring : List β) : List β :=
  ring.filter (fun x => decide (h < place x)) ++ ring.filter (fun x => decide (place x ≤ h))

theorem fromPointPerm (h : α) (ring : List β) : (fromPoint place h ring).Perm ring := by
  have parts := List.filter_append_perm (fun x => decide (h < place x)) ring
  have rest : (ring.filter fun x => !decide (h < place x)) =
      ring.filter fun x => decide (place x ≤ h) := by
    apply List.filter_congr
    intro x _
    rw [← decide_not, decide_eq_decide, not_lt]
  rwa [rest] at parts

/-- `k` is where a sorted ring passes `h`. -/
structure CutAt (h : α) (ring : List β) (k : Nat) : Prop where
  before : ∀ x ∈ ring.take k, place x ≤ h
  after : ∀ x ∈ ring.drop k, h < place x

variable {place}

theorem cutRotates {h : α} {ring : List β} {k : Nat} (cut : CutAt place h ring k)
    (bound : k ≤ ring.length) : fromPoint place h ring = ring.rotate k := by
  have kept : ∀ p : α → Bool, ring.filter (fun x => p (place x)) =
      (ring.take k).filter (fun x => p (place x)) ++ (ring.drop k).filter fun x => p (place x) := by
    intro p
    rw [← List.filter_append, List.take_append_drop]
  rw [List.rotate_eq_drop_append_take bound]
  unfold fromPoint
  rw [kept fun p => decide (h < p), kept fun p => decide (p ≤ h)]
  have noneBefore : (ring.take k).filter (fun x => decide (h < place x)) = [] := by
    apply List.filter_eq_nil_iff.mpr
    intro x inside
    simpa using cut.before x inside
  have noneAfter : (ring.drop k).filter (fun x => decide (place x ≤ h)) = [] := by
    apply List.filter_eq_nil_iff.mpr
    intro x inside
    simpa using cut.after x inside
  have allBefore : (ring.take k).filter (fun x => decide (place x ≤ h)) = ring.take k := by
    apply List.filter_eq_self.mpr
    intro x inside
    simpa using cut.before x inside
  have allAfter : (ring.drop k).filter (fun x => decide (h < place x)) = ring.drop k := by
    apply List.filter_eq_self.mpr
    intro x inside
    simpa using cut.after x inside
  rw [noneBefore, noneAfter, allBefore, allAfter, List.nil_append, List.append_nil]

theorem fromPointSorted {ring : List β} (sorted : ring.Pairwise fun a b => place a ≤ place b)
    (h : α) : (fromPoint place h ring).Pairwise fun a b => arc h (place a) ≤ arc h (place b) := by
  refine List.pairwise_append.mpr ⟨?_, ?_, ?_⟩
  · refine (sorted.filter _).imp_of_mem fun {a b} left right le => ?_
    have beyondLeft : h < place a := by simpa using (List.mem_filter.mp left).2
    have beyondRight : h < place b := by simpa using (List.mem_filter.mp right).2
    exact arcWithin (iff_of_true beyondLeft beyondRight) le
  · refine (sorted.filter _).imp_of_mem fun {a b} left right le => ?_
    have upToLeft : place a ≤ h := by simpa using (List.mem_filter.mp left).2
    have upToRight : place b ≤ h := by simpa using (List.mem_filter.mp right).2
    exact arcWithin (iff_of_false (not_lt.mpr upToLeft) (not_lt.mpr upToRight)) le
  · intro a left b right
    have beyond : h < place a := by simpa using (List.mem_filter.mp left).2
    have upTo : place b ≤ h := by simpa using (List.mem_filter.mp right).2
    exact arcBeyond beyond upTo

structure First (place : β → α) (h : α) (ring : List β) (x : β) : Prop where
  inside : x ∈ ring
  soonest : ∀ y ∈ ring, arc h (place x) ≤ arc h (place y)

theorem headFirst {ring : List β} (sorted : ring.Pairwise fun a b => place a ≤ place b) {h : α}
    {x : β} (head : (fromPoint place h ring).head? = some x) : First place h ring x := by
  have members := fromPointPerm place h ring
  have ordered := fromPointSorted sorted h
  obtain ⟨rest, shape⟩ := List.head?_eq_some_iff.mp head
  rw [shape] at members ordered
  refine ⟨members.mem_iff.mp List.mem_cons_self, fun y inside => ?_⟩
  rcases List.mem_cons.mp (members.mem_iff.mpr inside) with same | later
  · rw [same]
  · exact (List.pairwise_cons.mp ordered).1 y later

theorem fromPointFilter (h : α) (ring : List β) (p : β → Bool) :
    (fromPoint place h ring).filter p = fromPoint place h (ring.filter p) := by
  unfold fromPoint
  rw [List.filter_append, List.filter_filter, List.filter_filter, List.filter_filter,
    List.filter_filter]
  simp only [Bool.and_comm]

theorem foundFirst {ring : List β} (sorted : ring.Pairwise fun a b => place a ≤ place b) {h : α}
    {p : β → Bool} {x : β} (found : (fromPoint place h ring).find? p = some x) :
    First place h (ring.filter p) x := by
  rw [← List.head?_filter, fromPointFilter] at found
  exact headFirst (sorted.filter p) found

/-- Two rings whose first entries occur in each other meet the same position first. -/
theorem firstsAgree {h : α} {left right : List β} {x y : β} (first : First place h left x)
    (other : First place h right y) (carried : x ∈ right) (shared : y ∈ left) :
    place x = place y :=
  arcInjective (le_antisymm (first.soonest y shared) (other.soonest x carried))

end OmegaLb.Clockwise
