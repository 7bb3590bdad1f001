import Mathlib.Algebra.Group.Nat.Defs
import Mathlib.Data.Nat.Find
import Mathlib.Order.Nat

/-! Searching an array of indexed entries: a bisection with a bound on its steps, the first
hit of a bounded probe, and a probe that wraps round the array. Nothing here names a system. -/
namespace OmegaLb.CircularProbe

/-! ### Bisection -/

/-- Halves [lo, hi) at most `steps` times: above `mid` where `low mid` holds, below it elsewhere. -/
def bisect (low : Nat → Bool) : Nat → Nat → Nat → Nat
  | 0, lo, _ => lo
  | steps + 1, lo, hi =>
    if lo ≥ hi then lo
    else
      let mid := lo + (hi - lo) / 2
      if low mid then bisect low steps (mid + 1) hi else bisect low steps lo mid

/-- `k` is where the entries stop being low. -/
structure Cut (low : Nat → Bool) (n k : Nat) : Prop where
  bound : k ≤ n
  before : ∀ i, i < k → low i = true
  after : ∀ i, k ≤ i → i < n → low i = false

theorem bisectCut {low : Nat → Bool} {n : Nat} (falling : ∀ i j, i ≤ j → j < n → low j → low i)
    {steps lo hi : Nat} (ordered : lo ≤ hi) (bound : hi ≤ n) (enough : hi - lo < 2 ^ steps)
    (before : ∀ i, i < lo → low i = true) (after : ∀ i, hi ≤ i → i < n → low i = false) :
    Cut low n (bisect low steps lo hi) := by
  induction steps generalizing lo hi with
  | zero =>
    have same : lo = hi := by omega
    exact ⟨ordered.trans bound, before, fun i high => after i (same ▸ high)⟩
  | succ steps ih =>
    rw [Nat.pow_succ] at enough
    unfold bisect
    split
    · exact ⟨ordered.trans bound, before, fun i high => after i (by omega)⟩
    · dsimp only
      split
      · rename_i lowMid
        refine ih (by omega) bound (by omega) (fun i below => ?_) after
        exact falling i _ (by omega) (by omega) lowMid
      · rename_i highMid
        refine ih (by omega) (by omega) (by omega) before fun i above inside => ?_
        exact Bool.eq_false_iff.mpr fun lowHere => highMid (falling _ i above inside lowHere)

theorem cutCount {low : Nat → Bool} {n k : Nat} (cut : Cut low n k) : (List.range n).countP low = k := by
  obtain ⟨rest, rfl⟩ := Nat.exists_eq_add_of_le cut.bound
  have head : (List.range k).countP low = k := by
    have all := List.countP_eq_length.mpr fun i (member : i ∈ List.range k) =>
      cut.before i (List.mem_range.mp member)
    rwa [List.length_range] at all
  have tail : ((List.range rest).map (k + ·)).countP low = 0 := by
    refine List.countP_eq_zero.mpr fun i member => ?_
    obtain ⟨j, inside, rfl⟩ := List.mem_map.mp member
    have high := cut.after (k + j) (by omega) (by have := List.mem_range.mp inside; omega)
    rw [high]
    exact Bool.false_ne_true
  rw [List.range_add, List.countP_append, head, tail]
  rfl

/-! ### The first hit -/

variable {α : Type}

structure First (probe : Nat → Option α) (limit k : Nat) (a : α) : Prop where
  inside : k < limit
  hit : probe k = some a
  missed : ∀ i, i < k → probe i = none

variable {probe other : Nat → Option α} {limit k l : Nat} {a b : α}

theorem firstUnique (left : First probe limit k a) (right : First probe limit l b) : k = l ∧ a = b := by
  have same : k = l := by
    rcases Nat.lt_trichotomy k l with before | same | after
    · cases (right.missed k before).symm.trans left.hit
    · exact same
    · cases (left.missed l after).symm.trans right.hit
  subst same
  exact ⟨rfl, Option.some.inj (left.hit.symm.trans right.hit)⟩

theorem firstExists (hit : ∃ i, i < limit ∧ (probe i).isSome) : ∃ k a, First probe limit k a := by
  have least := Nat.find_spec hit
  obtain ⟨a, found⟩ := Option.isSome_iff_exists.mp least.2
  refine ⟨Nat.find hit, a, least.1, found, fun i before => ?_⟩
  by_contra some_
  exact Nat.find_min hit before ⟨before.trans least.1, Option.isSome_iff_ne_none.mpr some_⟩

theorem firstOf {few : Nat} (first : First probe few k a) (within : k < limit)
    (same : ∀ i, i ≤ k → other i = probe i) : First other limit k a where
  inside := within
  hit := (same k (Nat.le_refl k)).trans first.hit
  missed := fun i before => (same i before.le).trans (first.missed i before)

theorem firstTail (missed : probe 0 = none) :
    First probe (limit + 1) (k + 1) a ↔ First (fun i => probe (i + 1)) limit k a := by
  constructor
  · intro first
    exact ⟨Nat.lt_of_succ_lt_succ first.inside, first.hit,
      fun i before => first.missed (i + 1) (Nat.succ_lt_succ before)⟩
  · intro first
    refine ⟨Nat.succ_lt_succ first.inside, first.hit, fun i before => ?_⟩
    cases i with
    | zero => exact missed
    | succ i => exact first.missed i (Nat.lt_of_succ_lt_succ before)

/-! ### Wrapping round the array -/

/-- A probe that runs on past the end of the entries, as far as it lies past the end. -/
def pastEnd (n start : Nat) (probe : Nat → Option α) (i : Nat) : Option α :=
  if start + i < n then none else probe i

theorem firstPastEnd {n start : Nat} (missed : ∀ i, start + i < n → probe i = none) :
    First (pastEnd n start probe) limit k a ↔ First probe limit k a := by
  have same : pastEnd n start probe = probe := by
    funext i
    unfold pastEnd
    split
    · rename_i inside
      exact (missed i inside).symm
    · rfl
  rw [same]

/-! ### Searching a list that closes on itself -/

/-- The first entry that satisfies `p`, or else the head. -/
def wrapFind (p : α → Bool) (xs : List α) : Option α := (xs.find? p).or xs.head?

theorem cutFind {low : Nat → Bool} {p : α → Bool} {xs : List α} {k : Nat}
    (reads : ∀ i (inside : i < xs.length), low i = !p xs[i]) (cut : Cut low xs.length k) :
    xs.find? p = xs[k]? := by
  rcases Nat.lt_or_ge k xs.length with inside | beyond
  · rw [List.getElem?_eq_getElem inside, List.find?_eq_some_iff_getElem]
    have high := cut.after k (Nat.le_refl k) inside
    rw [reads k inside] at high
    refine ⟨by simpa using high, k, inside, rfl, fun j before => ?_⟩
    have lower := cut.before j before
    rwa [reads j (before.trans inside)] at lower
  · rw [List.getElem?_eq_none beyond, List.find?_eq_none]
    intro x member
    obtain ⟨i, inside, rfl⟩ := List.mem_iff_getElem.mp member
    have lower := cut.before i (Nat.lt_of_lt_of_le inside beyond)
    rw [reads i inside] at lower
    simpa using lower

theorem cutWrap {low : Nat → Bool} {p : α → Bool} {xs : List α} {k : Nat}
    (reads : ∀ i (inside : i < xs.length), low i = !p xs[i]) (cut : Cut low xs.length k) :
    wrapFind p xs = xs[k % xs.length]? := by
  rw [wrapFind, cutFind reads cut]
  rcases Nat.lt_or_ge k xs.length with inside | beyond
  · rw [Nat.mod_eq_of_lt inside, List.getElem?_eq_getElem inside, Option.some_or]
  · have full : k = xs.length := Nat.le_antisymm cut.bound beyond
    rw [full, Nat.mod_self, List.getElem?_eq_none (Nat.le_refl _), Option.none_or, List.head?_eq_getElem?]

/-- Entries that are not the one found can go. -/
theorem wrapFilter {p q : α → Bool} {xs : List α} {x : α} (found : wrapFind p xs = some x) (kept : q x = true) :
    wrapFind p (xs.filter q) = some x := by
  unfold wrapFind at found ⊢
  rw [List.find?_filter, List.head?_filter]
  cases hit : xs.find? p with
  | some y =>
    rw [hit, Option.some_or, Option.some.injEq] at found
    subst found
    obtain ⟨holds, before, after, rfl, missed⟩ := List.find?_eq_some_iff_append.mp hit
    have same : (before ++ y :: after).find? (fun a => decide (q a = true ∧ p a = true)) = some y := by
      refine List.find?_eq_some_iff_append.mpr ⟨by simp [kept, holds], before, after, rfl, fun z member => ?_⟩
      have unmet := missed z member
      simp only [Bool.not_eq_true'] at unmet
      simp [unmet]
    rw [same, Option.some_or]
  | none =>
    rw [hit, Option.none_or] at found
    have missed := List.find?_eq_none.mp hit
    have none_ : xs.find? (fun a => decide (q a = true ∧ p a = true)) = none :=
      List.find?_eq_none.mpr fun z member => by simp [missed z member]
    obtain ⟨rest, rfl⟩ := List.head?_eq_some_iff.mp found
    rw [none_, Option.none_or, List.find?_cons_of_pos kept]

end OmegaLb.CircularProbe
