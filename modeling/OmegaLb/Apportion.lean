import Mathlib.Algebra.Order.BigOperators.Group.List
import Mathlib.Tactic.Ring

/-! Integer apportionment: `pool` units split over weights, each share rounded down
and the units left over given to the first entries, one each. -/
namespace OmegaLb.Apportion

def floors (pool : Nat) (ws : List Nat) : List Nat := ws.map fun w => w * pool / ws.sum

def leftover (pool : Nat) (ws : List Nat) : Nat := pool - (floors pool ws).sum

def topUp (r : Nat) (qs : List Nat) : List Nat := qs.mapIdx fun i q => if i < r then q + 1 else q

def shares (pool : Nat) (ws : List Nat) : List Nat := topUp (leftover pool ws) (floors pool ws)

theorem divisionSum (pool total : Nat) (ws : List Nat) :
    total * (ws.map fun w => w * pool / total).sum + (ws.map fun w => w * pool % total).sum =
      ws.sum * pool := by
  induction ws with
  | nil => simp
  | cons w ws ih =>
    have head := Nat.div_add_mod (w * pool) total
    simp only [List.map_cons, List.sum_cons, Nat.mul_add, Nat.add_mul]
    omega

theorem floorsSumLe (pool : Nat) {ws : List Nat} (positive : 0 < ws.sum) :
    (floors pool ws).sum ≤ pool := by
  have division := divisionSum pool ws.sum ws
  have scaled : ws.sum * (floors pool ws).sum ≤ ws.sum * pool := by
    unfold floors
    omega
  exact Nat.le_of_mul_le_mul_left scaled positive

theorem leftoverAdd (pool : Nat) {ws : List Nat} (positive : 0 < ws.sum) :
    (floors pool ws).sum + leftover pool ws = pool := by
  have le := floorsSumLe pool positive
  unfold leftover
  omega

theorem remaindersSumLe (pool total : Nat) (ws : List Nat) (positive : 0 < total) :
    (ws.map fun w => w * pool % total).sum + ws.length ≤ ws.length * total := by
  induction ws with
  | nil => simp
  | cons w ws ih =>
    have below := Nat.mod_lt (w * pool) positive
    simp only [List.map_cons, List.sum_cons, List.length_cons, Nat.add_mul]
    omega

theorem leftoverLt (pool : Nat) {ws : List Nat} (positive : 0 < ws.sum) :
    leftover pool ws < ws.length := by
  have division : ws.sum * (floors pool ws).sum + (ws.map fun w => w * pool % ws.sum).sum =
      ws.sum * pool := divisionSum pool ws.sum ws
  have remainders := remaindersSumLe pool ws.sum ws positive
  have whole : ws.sum * (floors pool ws).sum + ws.sum * leftover pool ws = ws.sum * pool := by
    rw [← Nat.mul_add, leftoverAdd pool positive]
  have nonempty : 0 < ws.length := by
    cases ws with
    | nil => simp at positive
    | cons w ws => simp
  have scaled : ws.sum * leftover pool ws < ws.sum * ws.length := by
    rw [Nat.mul_comm ws.sum ws.length]
    omega
  exact Nat.lt_of_mul_lt_mul_left scaled

theorem topUpNone (qs : List Nat) : topUp 0 qs = qs :=
  List.ext_getElem (by simp [topUp]) (by simp [topUp])

theorem topUpSum {r : Nat} {qs : List Nat} (bound : r ≤ qs.length) :
    (topUp r qs).sum = qs.sum + r := by
  induction qs generalizing r with
  | nil =>
    have zero : r = 0 := by simpa using bound
    simp [topUp, zero]
  | cons q qs ih =>
    cases r with
    | zero => rw [topUpNone, Nat.add_zero]
    | succ r =>
      have tail := @ih r (by simpa using bound)
      unfold topUp at *
      simp only [List.mapIdx_cons, Nat.zero_lt_succ, if_true, Nat.add_lt_add_iff_right,
        List.sum_cons, tail]
      omega

theorem sharesSum (pool : Nat) {ws : List Nat} (positive : 0 < ws.sum) :
    (shares pool ws).sum = pool := by
  have bound := leftoverLt pool positive
  have length : (floors pool ws).length = ws.length := by simp [floors]
  rw [shares, topUpSum (by omega), leftoverAdd pool positive]

theorem sharesAt (pool : Nat) (ws : List Nat) (i : Nat) (inside : i < (shares pool ws).length)
    (bound : i < ws.length) :
    (shares pool ws)[i] = ws[i] * pool / ws.sum + if i < leftover pool ws then 1 else 0 := by
  simp only [shares, topUp, floors, List.getElem_mapIdx, List.getElem_map]
  split <;> rfl

theorem leftoverPerm (pool : Nat) {ws other : List Nat} (perm : ws.Perm other) :
    leftover pool other = leftover pool ws := by
  have same : (floors pool ws).Perm (floors pool other) := by
    simp only [floors, perm.sum_eq]
    exact perm.map _
  rw [leftover, leftover, same.sum_eq]

end OmegaLb.Apportion
