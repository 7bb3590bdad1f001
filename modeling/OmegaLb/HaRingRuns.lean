import OmegaLb.HaRing
import Mathlib.Logic.Function.Basic

/-! HAring over all sequences of updates: the ring stands for one count and one flag a backend,
and a key moves only when the backend that had it goes down. -/
namespace OmegaLb.HaRing
open CircularProbe (Cut bisect bisectCut cutWrap wrapFilter wrapFind)
open GoText (Bytes)

/-! ### What the updates say -/

inductive Update where
  | vnodes (backendId count : Int)
  | health (backendId : Int) (healthy : Bool)

structure Settings where
  counts : Nat → Nat
  health : Nat → Bool

/-- A call that raises leaves everything as it was. -/
def Settings.apply (n : Nat) (s : Settings) : Update → Settings
  | .vnodes backendId count =>
    match pyIndex n backendId with
    | none => s
    | some k => { s with counts := Function.update s.counts k (clamp count) }
  | .health backendId healthy =>
    match pyIndex n backendId with
    | none => s
    | some k => { s with health := Function.update s.health k healthy }

def settings (n vnodesPer : Nat) (updates : List Update) : Settings :=
  updates.foldl (Settings.apply n) ⟨fun _ => vnodesPer, fun _ => true⟩

def Settings.points (n : Nat) (s : Settings) : List Point :=
  (List.range n).flatMap fun i => if s.health i then pointsOf i (s.counts i) else []

def HAring.apply (r : HAring) : Update → HAring
  | .vnodes backendId count => (r.setVnodes backendId count).getD r
  | .health backendId healthy => (r.setHealth backendId healthy).getD r

def HAring.run (r : HAring) (updates : List Update) : HAring := updates.foldl HAring.apply r

structure StandsFor (n : Nat) (s : Settings) (r : HAring) : Prop where
  size : r.n = n
  counts : ∀ i, i < n → r.vnodes.getD i 0 = s.counts i
  health : ∀ i, i < n → r.health.getD i false = s.health i

theorem startStands {n vnodesPer : Nat} (within : 10 ≤ vnodesPer ∧ vnodesPer ≤ 300) :
    StandsFor n ⟨fun _ => vnodesPer, fun _ => true⟩ (start n vnodesPer within) where
  size := List.length_replicate
  counts i inside := by
    unfold start
    rw [List.getD_replicate _ inside]
  health i inside := by
    unfold start
    rw [List.getD_replicate _ inside]

theorem getDSet {α : Type} (xs : List α) (k i : Nat) (inside : k < xs.length) (x d : α) :
    (xs.set k x).getD i d = if i = k then x else xs.getD i d := by
  rw [List.getD_eq_getElem?_getD, List.getElem?_set]
  by_cases same : k = i
  · rw [if_pos same, if_pos inside, if_pos same.symm, Option.getD_some]
  · rw [if_neg same, if_neg (Ne.symm same), List.getD_eq_getElem?_getD]

theorem applyStands {n : Nat} {s : Settings} {r : HAring} (stands : StandsFor n s r) (update : Update) :
    StandsFor n (s.apply n update) (r.apply update) := by
  obtain ⟨size, counts, health⟩ := stands
  cases update with
  | vnodes backendId count =>
    simp only [HAring.apply, HAring.setVnodes, Settings.apply, size]
    cases found : pyIndex n backendId with
    | none => exact ⟨size, counts, health⟩
    | some k =>
      have inside : k < r.n := by
        rw [size]
        exact pyIndexInside found
      refine ⟨(List.length_set ..).trans size, fun i below => ?_, health⟩
      show (r.vnodes.set k (clamp count)).getD i 0 = Function.update s.counts k (clamp count) i
      rw [getDSet _ _ _ inside, Function.update_apply, counts i below]
  | health backendId healthy =>
    simp only [HAring.apply, HAring.setHealth, Settings.apply, size]
    cases found : pyIndex n backendId with
    | none => exact ⟨size, counts, health⟩
    | some k =>
      have inside : k < r.health.length := by
        have within := pyIndexInside found
        rwa [r.backends, ← HAring.n, size]
      refine ⟨size, counts, fun i below => ?_⟩
      show (r.health.set k healthy).getD i false = Function.update s.health k healthy i
      rw [getDSet _ _ _ inside, Function.update_apply, health i below]

theorem runStands {n : Nat} {s : Settings} {r : HAring} (stands : StandsFor n s r) (updates : List Update) :
    StandsFor n (updates.foldl (Settings.apply n) s) (r.run updates) := by
  induction updates generalizing s r with
  | nil => exact stands
  | cons update rest ih => exact ih (applyStands stands update)

/-! ### The order of the points -/

theorem beforeNat {a b : Point} :
    Before a b ↔ a.1.toNat < b.1.toNat ∨ a.1.toNat = b.1.toNat ∧ a.2 ≤ b.2 := by
  rw [Before, UInt32.lt_iff_toNat_lt, UInt32.toNat_inj]

instance : Std.Total Before where
  total a b := by
    rw [beforeNat, beforeNat]
    omega

instance : IsTrans Point Before where
  trans a b c := by
    rw [beforeNat, beforeNat, beforeNat]
    omega

instance : Std.Antisymm Before where
  antisymm a b := by
    rw [beforeNat, beforeNat]
    intro left right
    exact Prod.ext (UInt32.toNat_inj.mp (by omega)) (by omega)

theorem ringSorted (r : HAring) : r.ring.Pairwise Before := by
  rw [r.built]
  exact List.pairwise_insertionSort Before _

theorem ringPoints {n : Nat} {s : Settings} {r : HAring} (stands : StandsFor n s r) :
    r.ring.Perm (s.points n) := by
  have size : r.vnodes.length = n := stands.size
  rw [r.built, rebuild, size]
  refine (List.perm_insertionSort _ _).trans (List.Perm.of_eq (List.flatMap_congr fun i member => ?_))
  have inside := List.mem_range.mp member
  rw [stands.health i inside, stands.counts i inside]

/-! ### Routes -/

theorem routeFinds (r : HAring) (key : Bytes) :
    r.route key = ((wrapFind (fun p => decide (murmur3_32 key 0 ≤ p.1)) r.ring).map Prod.snd).getD 0 := by
  by_cases empty : r.ring = []
  · rw [HAring.route, if_pos empty, empty]
    rfl
  · have some_ := List.length_pos_iff.mpr empty
    rw [HAring.route, if_neg empty]
    dsimp only
    generalize same : (fun mid => decide ((r.ring.getD mid (0, 0)).1 < murmur3_32 key 0)) = low
    have at_ : ∀ i (inside : i < r.ring.length), low i = decide ((r.ring[i]).1 < murmur3_32 key 0) := by
      intro i inside
      rw [← same]
      dsimp only
      rw [List.getD_eq_getElem _ _ inside]
    have reads : ∀ i (inside : i < r.ring.length), low i = !decide (murmur3_32 key 0 ≤ (r.ring[i]).1) := by
      intro i inside
      rw [at_ i inside, ← decide_not, decide_eq_decide, UInt32.not_le]
    have falling : ∀ i j, i ≤ j → j < r.ring.length → low j → low i := by
      intro i j order inside low
      rcases Nat.eq_or_lt_of_le order with rfl | less
      · exact low
      · have before := beforeNat.mp (List.pairwise_iff_getElem.mp (ringSorted r) i j (less.trans inside) inside less)
        rw [at_ j inside, decide_eq_true_eq, UInt32.lt_iff_toNat_lt] at low
        rw [at_ i (less.trans inside), decide_eq_true_eq, UInt32.lt_iff_toNat_lt]
        omega
    have cut : Cut low r.ring.length (bisect low r.ring.length 0 r.ring.length) :=
      bisectCut falling (Nat.zero_le _) (Nat.le_refl _) Nat.lt_two_pow_self
        (fun i below => absurd below (Nat.not_lt_zero i)) fun i high inside => absurd inside (Nat.not_lt.mpr high)
    have within := Nat.mod_lt (bisect low r.ring.length 0 r.ring.length) some_
    rw [cutWrap reads cut, List.getElem?_eq_getElem within, List.getD_eq_getElem _ _ within]
    rfl

theorem flagDowned (health : List Bool) (k i : Nat) :
    (health.set k false).getD i false = (decide (i ≠ k) && health.getD i false) := by
  rw [List.getD_eq_getElem?_getD, List.getD_eq_getElem?_getD, List.getElem?_set]
  by_cases same : k = i
  · rw [if_pos same, decide_eq_false (not_not.mpr same.symm), Bool.false_and]
    split <;> rfl
  · rw [if_neg same, decide_eq_true (Ne.symm same), Bool.true_and]

theorem pointsOwner {i count : Nat} {p : Point} (listed : p ∈ pointsOf i count) : p.2 = i := by
  obtain ⟨v, _, rfl⟩ := List.mem_map.mp listed
  rfl

/-- Where a backend is taken out, the others keep their points in their order. -/
theorem downFilters (r : HAring) (k : Nat) :
    (r.putHealth k false).ring = r.ring.filter fun p => decide (p.2 ≠ k) := by
  refine List.Perm.eq_of_pairwise' (ringSorted _) ((ringSorted r).filter _) ?_
  rw [(r.putHealth k false).built, r.built, rebuild, rebuild]
  refine (List.perm_insertionSort _ _).trans (.trans ?_ ((List.perm_insertionSort _ _).filter _).symm)
  rw [List.filter_flatMap]
  refine List.Perm.of_eq (List.flatMap_congr fun i _ => ?_)
  rw [show (r.putHealth k false).health = r.health.set k false from rfl, flagDowned]
  by_cases same : i = k
  · have gone : ∀ p ∈ pointsOf i (r.vnodes.getD i 0), ¬ decide (p.2 ≠ k) = true := fun p listed => by
      rw [pointsOwner listed, same]
      simp
    rw [decide_eq_false (not_not.mpr same), Bool.false_and, if_neg Bool.false_ne_true]
    split
    · exact (List.filter_eq_nil_iff.mpr gone).symm
    · rfl
  · have kept : ∀ p ∈ pointsOf i (r.vnodes.getD i 0), decide (p.2 ≠ k) = true := fun p listed => by
      rw [pointsOwner listed]
      exact decide_eq_true same
    rw [decide_eq_true same, Bool.true_and]
    split
    · exact (List.filter_eq_self.mpr kept).symm
    · rfl

/-- A key moves only from the backend that goes down. -/
theorem downMoves (r : HAring) (k : Nat) (key : Bytes) (moved : (r.putHealth k false).route key ≠ r.route key) :
    r.route key = k := by
  by_contra other
  refine moved ?_
  rw [routeFinds] at other
  rw [routeFinds, routeFinds, downFilters]
  cases found : wrapFind (fun p => decide (murmur3_32 key 0 ≤ p.1)) r.ring with
  | none =>
    have empty : r.ring = [] := by
      obtain ⟨_, head⟩ := Option.or_eq_none_iff.mp found
      exact List.head?_eq_none_iff.mp head
    rw [empty]
    rfl
  | some p =>
    rw [found] at other
    rw [wrapFilter found (decide_eq_true other)]

/-! ### All runs -/

structure Behaves (n : Nat) (s : Settings) (r : HAring) : Prop where
  sorted : r.ring.Pairwise Before
  points : r.ring.Perm (s.points n)
  routes : ∀ key : Bytes, r.route key =
    ((wrapFind (fun p => decide (murmur3_32 key 0 ≤ p.1)) r.ring).map Prod.snd).getD 0
  healthy : ∀ key : Bytes, (∃ i < n, s.health i = true) → r.route key < n ∧ s.health (r.route key) = true
  disrupts : ∀ (backendId : Int) (k : Nat) (r' : HAring), pyIndex n backendId = some k →
    r.setHealth backendId false = some r' → ∀ key : Bytes, r'.route key ≠ r.route key → r.route key = k

theorem standsBehaves {n : Nat} {s : Settings} {r : HAring} (stands : StandsFor n s r) : Behaves n s r where
  sorted := ringSorted r
  points := ringPoints stands
  routes := routeFinds r
  healthy key up := by
    obtain ⟨i, inside, health⟩ := up
    have some_ : 0 < r.n := stands.size ▸ Nat.zero_lt_of_lt inside
    have within : r.route key < n := stands.size ▸ routeInside r some_ key
    refine ⟨within, ?_⟩
    rw [← stands.health i inside] at health
    rw [← stands.health _ within]
    exact routeHealthy r health key
  disrupts backendId k r' found done key moved := by
    rw [HAring.setHealth, stands.size, found, Option.map_some, Option.some.injEq] at done
    subst done
    exact downMoves r k key moved

theorem ringRuns {n vnodesPer : Nat} (within : 10 ≤ vnodesPer ∧ vnodesPer ≤ 300) (updates : List Update) :
    Behaves n (settings n vnodesPer updates) ((start n vnodesPer within).run updates) :=
  standsBehaves (runStands (startStands within) updates)

theorem ringRunsThree : Behaves 3 (settings 3 150 [.vnodes 1 400, .health (-1) false, .vnodes 5 20])
    ((start 3 150 (by decide)).run [.vnodes 1 400, .health (-1) false, .vnodes 5 20]) :=
  ringRuns (by decide) _

end OmegaLb.HaRing
