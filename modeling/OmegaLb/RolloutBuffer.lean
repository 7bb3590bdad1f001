import OmegaLb.Discounting
import Mathlib.Algebra.Field.Basic
import Mathlib.Data.List.GetD
import Mathlib.Algebra.Field.Rat

/-! compute_gae of train_ppo_kan.py over exact numbers. The loop runs back from the last step and puts
each advantage in front; an index out of a list is an IndexError. -/
namespace OmegaLb.Ppo
open Discounting (discounted discountedHead discountedSame discountedZero)

variable {K : Type} [Field K]

structure RolloutBuffer (K : Type) where
  rewards : List K
  values : List K
  dones : List K

/-- The rounds of the loop over the steps that are left, the latest first. -/
def RolloutBuffer.gaeLoop (b : RolloutBuffer K) (gamma lam lastValue : K) :
    List Nat → K → List K → Option (List K)
  | [], _, advantages => some advantages
  | t :: ts, gae, advantages => do
    let values := b.values ++ [lastValue]
    let reward ← b.rewards[t]?
    let next ← values[t + 1]?
    let done ← b.dones[t]?
    let value ← values[t]?
    let delta := reward + gamma * next * (1 - done) - value
    let gae := delta + gamma * lam * (1 - done) * gae
    b.gaeLoop gamma lam lastValue ts gae (gae :: advantages)

def RolloutBuffer.computeGae (b : RolloutBuffer K) (gamma lam lastValue : K) : Option (List K × List K) := do
  let advantages ← b.gaeLoop gamma lam lastValue (List.range b.rewards.length).reverse 0 []
  return (advantages, List.zipWith (· + ·) advantages b.values)

/-! ### What is promised -/

/-- A rollout as update fills it. -/
structure Filled (b : RolloutBuffer K) : Prop where
  values : b.values.length = b.rewards.length
  dones : b.dones.length = b.rewards.length
  flags : ∀ done ∈ b.dones, done = 0 ∨ done = 1

def RolloutBuffer.delta (b : RolloutBuffer K) (gamma lastValue : K) (t : Nat) : K :=
  b.rewards.getD t 0 + gamma * (b.values ++ [lastValue]).getD (t + 1) 0 * (1 - b.dones.getD t 0) - b.values.getD t 0

def RolloutBuffer.Running (b : RolloutBuffer K) (t k : Nat) : Prop := ∀ j, j < k → b.dones.getD (t + j) 0 = 0

instance [DecidableEq K] (b : RolloutBuffer K) (t k : Nat) : Decidable (b.Running t k) :=
  inferInstanceAs (Decidable (∀ j, j < k → _))

/-- The discounted deltas from `t` up to the first done, which is still in. -/
def RolloutBuffer.advantage [DecidableEq K] (b : RolloutBuffer K) (gamma lam lastValue : K) (t : Nat) : K :=
  ∑ k ∈ Finset.range (b.rewards.length - t),
    (gamma * lam) ^ k * if b.Running t k then b.delta gamma lastValue (t + k) else 0

/-- The same rewards, values and flags up to the step `d`. -/
structure AlikeTo (d : Nat) (b c : RolloutBuffer K) : Prop where
  rewards : ∀ t, t ≤ d → b.rewards[t]? = c.rewards[t]?
  values : ∀ t, t ≤ d → b.values[t]? = c.values[t]?
  dones : ∀ t, t ≤ d → b.dones[t]? = c.dones[t]?

/-! ### The recurrence -/

variable {b c : RolloutBuffer K}

theorem runningNext (t k : Nat) : b.Running t (k + 1) ↔ b.dones.getD t 0 = 0 ∧ b.Running (t + 1) k := by
  constructor
  · intro running
    refine ⟨running 0 (Nat.succ_pos k), fun j inside => ?_⟩
    rw [Nat.add_right_comm, Nat.add_assoc]
    exact running (j + 1) (Nat.succ_lt_succ inside)
  · rintro ⟨first, later⟩ j inside
    cases j with
    | zero => exact first
    | succ j =>
      rw [← Nat.add_assoc, Nat.add_right_comm]
      exact later j (Nat.lt_of_succ_lt_succ inside)

theorem flagAt (filled : Filled b) {t : Nat} (inside : t < b.rewards.length) :
    b.dones.getD t 0 = 0 ∨ b.dones.getD t 0 = 1 := by
  have place : t < b.dones.length := filled.dones ▸ inside
  rw [List.getD_eq_getElem _ _ place]
  exact filled.flags _ (List.getElem_mem place)

variable [DecidableEq K] (gamma lam lastValue : K)

theorem advantageEnd (b : RolloutBuffer K) : b.advantage gamma lam lastValue b.rewards.length = 0 := by
  rw [RolloutBuffer.advantage, Nat.sub_self, Finset.sum_range_zero]

theorem advantageStep (filled : Filled b) {t : Nat} (inside : t < b.rewards.length) :
    b.advantage gamma lam lastValue t = b.delta gamma lastValue t +
      gamma * lam * (1 - b.dones.getD t 0) * b.advantage gamma lam lastValue (t + 1) := by
  obtain ⟨left, whole⟩ : ∃ left, b.rewards.length - t = left + 1 := ⟨b.rewards.length - t - 1, by omega⟩
  have here : b.advantage gamma lam lastValue t = b.delta gamma lastValue t + gamma * lam *
      discounted (gamma * lam) (fun k => if b.Running t (k + 1) then b.delta gamma lastValue (t + (k + 1)) else 0)
        left := by
    have first : b.Running t 0 := fun j below => absurd below (Nat.not_lt_zero j)
    have split_ := discountedHead (gamma * lam)
      (fun k => if b.Running t k then b.delta gamma lastValue (t + k) else 0) left
    rw [if_pos first] at split_
    rw [RolloutBuffer.advantage, whole]
    exact split_
  have later : b.advantage gamma lam lastValue (t + 1) = discounted (gamma * lam)
      (fun k => if b.Running (t + 1) k then b.delta gamma lastValue (t + 1 + k) else 0) left := by
    rw [RolloutBuffer.advantage, show b.rewards.length - (t + 1) = left by omega]
    rfl
  rw [here, later]
  rcases flagAt filled inside with running | done
  · rw [running, sub_zero, mul_one]
    refine congrArg (b.delta gamma lastValue t + gamma * lam * ·) (discountedSame fun k _ => ?_)
    simp only [runningNext, running, true_and, Nat.add_right_comm, Nat.add_assoc]
  · have stopped : ∀ k, ¬ b.Running t (k + 1) := fun k running =>
      one_ne_zero (done.symm.trans ((runningNext t k).mp running).1)
    rw [done, sub_self, mul_zero, zero_mul, discountedZero fun k _ => if_neg (stopped k), mul_zero]

/-! ### The loop -/

theorem gaeLoopAdvantages (filled : Filled b) {t : Nat} (inside : t ≤ b.rewards.length) (advantages : List K) :
    b.gaeLoop gamma lam lastValue (List.range t).reverse (b.advantage gamma lam lastValue t) advantages =
      some ((List.range t).map (b.advantage gamma lam lastValue) ++ advantages) := by
  induction t generalizing advantages with
  | zero => rfl
  | succ t ih =>
    have place : t < b.values.length := filled.values ▸ inside
    have reward : b.rewards[t]? = some (b.rewards.getD t 0) := by
      rw [List.getD_eq_getElem _ _ inside, List.getElem?_eq_getElem]
    have done : b.dones[t]? = some (b.dones.getD t 0) := by
      have here : t < b.dones.length := filled.dones ▸ inside
      rw [List.getD_eq_getElem _ _ here, List.getElem?_eq_getElem]
    have value : (b.values ++ [lastValue])[t]? = some (b.values.getD t 0) := by
      rw [List.getElem?_append_left place, List.getD_eq_getElem _ _ place, List.getElem?_eq_getElem]
    have next : (b.values ++ [lastValue])[t + 1]? = some ((b.values ++ [lastValue]).getD (t + 1) 0) := by
      have here : t + 1 < (b.values ++ [lastValue]).length := by
        rw [List.length_append, List.length_singleton]
        omega
      rw [List.getD_eq_getElem _ _ here, List.getElem?_eq_getElem]
    rw [List.range_succ, List.reverse_concat, RolloutBuffer.gaeLoop]
    simp only [reward, next, done, value, Option.bind_eq_bind, Option.bind_some]
    have step := advantageStep gamma lam lastValue filled inside
    rw [RolloutBuffer.delta] at step
    rw [← step, ih (Nat.le_of_succ_le inside)]
    simp

theorem computeGaeAdvantages (filled : Filled b) : b.computeGae gamma lam lastValue =
    some ((List.range b.rewards.length).map (b.advantage gamma lam lastValue),
      List.zipWith (· + ·) ((List.range b.rewards.length).map (b.advantage gamma lam lastValue)) b.values) := by
  have loop := gaeLoopAdvantages gamma lam lastValue filled (Nat.le_refl _) []
  rw [advantageEnd, List.append_nil] at loop
  rw [RolloutBuffer.computeGae, loop]
  rfl

/-! ### Across the end of an episode -/

omit [Field K] [DecidableEq K] in
theorem sameEntry {xs ys : List K} {t : Nat} (same : xs[t]? = ys[t]?) (d : K) : xs.getD t d = ys.getD t d := by
  rw [List.getD_eq_getElem?_getD, List.getD_eq_getElem?_getD, same]

theorem advantageAlike (left : Filled b) (right : Filled c) (otherLast : K) {d t : Nat} (alike : AlikeTo d b c)
    (done : b.dones[d]? = some 1) (before : t ≤ d) :
    b.advantage gamma lam lastValue t = c.advantage gamma lam otherLast t := by
  have inside : d < b.rewards.length := left.dones ▸ (List.getElem?_eq_some_iff.mp done).1
  have inside' : d < c.rewards.length :=
    right.dones ▸ (List.getElem?_eq_some_iff.mp ((alike.dones d (Nat.le_refl d)).symm.trans done)).1
  obtain ⟨k, rfl⟩ := Nat.exists_eq_add_of_le before
  clear before
  induction k generalizing t with
  | zero =>
    rw [Nat.add_zero] at alike done inside inside'
    have flag : b.dones.getD t 0 = 1 := by rw [List.getD_eq_getElem?_getD, done, Option.getD_some]
    have flag' : c.dones.getD t 0 = 1 := (sameEntry (alike.dones t (Nat.le_refl t)) 0).symm.trans flag
    rw [advantageStep gamma lam lastValue left inside, advantageStep gamma lam otherLast right inside',
      RolloutBuffer.delta, RolloutBuffer.delta, flag, flag', sameEntry (alike.rewards t (Nat.le_refl t)),
      sameEntry (alike.values t (Nat.le_refl t))]
    simp
  | succ k ih =>
    have index : t + (k + 1) = t + 1 + k := by omega
    rw [index] at alike done inside inside'
    have later := ih alike done inside inside'
    have next : (b.values ++ [lastValue]).getD (t + 1) 0 = (c.values ++ [otherLast]).getD (t + 1) 0 := by
      have place : t + 1 < b.values.length := by rw [left.values]; omega
      have place' : t + 1 < c.values.length := by rw [right.values]; omega
      rw [List.getD_append _ _ _ _ place, List.getD_append _ _ _ _ place', sameEntry (alike.values (t + 1) (by omega))]
    rw [advantageStep gamma lam lastValue left (by omega), advantageStep gamma lam otherLast right (by omega),
      RolloutBuffer.delta, RolloutBuffer.delta, later, next, sameEntry (alike.rewards t (by omega)),
      sameEntry (alike.values t (by omega)), sameEntry (alike.dones t (by omega))]

theorem computeGaeExact (filled : Filled b) :
    (∃ advantages returns, b.computeGae gamma lam lastValue = some (advantages, returns) ∧
      advantages.length = b.rewards.length ∧ returns.length = b.rewards.length ∧
      ∀ t, t < b.rewards.length → advantages[t]? = some (b.advantage gamma lam lastValue t) ∧
        returns[t]? = some (b.advantage gamma lam lastValue t + b.values.getD t 0)) ∧
    ∀ (c : RolloutBuffer K) (otherLast : K) (d : Nat), Filled c → b.dones[d]? = some 1 → AlikeTo d b c →
      (b.computeGae gamma lam lastValue).map (fun r => r.1.take (d + 1)) =
        (c.computeGae gamma lam otherLast).map fun r => r.1.take (d + 1) := by
  refine ⟨⟨_, _, computeGaeAdvantages gamma lam lastValue filled, by simp, by simp [filled.values], ?_⟩, ?_⟩
  · intro t inside
    have place : t < b.values.length := filled.values ▸ inside
    have advantage : ((List.range b.rewards.length).map (b.advantage gamma lam lastValue))[t]? =
        some (b.advantage gamma lam lastValue t) := by simp [inside]
    refine ⟨advantage, ?_⟩
    rw [List.getElem?_zipWith, advantage, List.getElem?_eq_getElem place, List.getD_eq_getElem _ _ place]
  · intro c otherLast d other done alike
    have inside : d < b.rewards.length := filled.dones ▸ (List.getElem?_eq_some_iff.mp done).1
    have inside' : d < c.rewards.length :=
      other.dones ▸ (List.getElem?_eq_some_iff.mp ((alike.dones d (Nat.le_refl d)).symm.trans done)).1
    rw [computeGaeAdvantages gamma lam lastValue filled, computeGaeAdvantages gamma lam otherLast other,
      Option.map_some, Option.map_some, ← List.map_take, ← List.map_take, List.take_range, List.take_range,
      Nat.min_eq_left inside, Nat.min_eq_left inside']
    refine congrArg some (List.map_congr_left fun t member => ?_)
    exact advantageAlike gamma lam lastValue filled other otherLast alike done
      (Nat.le_of_lt_succ (List.mem_range.mp member))

def twoEpisodes : RolloutBuffer ℚ := ⟨[1, 2, 3], [1 / 2, 1, 1 / 4], [0, 1, 0]⟩

def oneEpisode : RolloutBuffer ℚ := ⟨[1, 2], [1 / 2, 1], [0, 1]⟩

theorem computeGaeExactEpisodes : (twoEpisodes.computeGae (9 / 10) (19 / 20) 5).map (fun r => r.1.take 2) =
    (oneEpisode.computeGae (9 / 10) (19 / 20) 0).map fun r => r.1.take 2 := by
  have left : Filled twoEpisodes := ⟨rfl, rfl, by decide +kernel⟩
  have right : Filled oneEpisode := ⟨rfl, rfl, by decide +kernel⟩
  have alike : AlikeTo 1 twoEpisodes oneEpisode := ⟨by decide +kernel, by decide +kernel, by decide +kernel⟩
  exact (computeGaeExact (9 / 10) (19 / 20) 5 left).2 oneEpisode 0 1 right (by decide +kernel) alike

end OmegaLb.Ppo
