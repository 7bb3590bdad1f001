import Mathlib.Data.List.Basic

/-! A list of which the last entries are kept in slots that are used again in turn. Nothing here
names a system. -/
namespace OmegaLb.BoundedRing

variable {α : Type} {slots xs : List α} {capacity : Nat}

def lastOf (capacity : Nat) (xs : List α) : List α := xs.drop (xs.length - capacity)

/-- Entry `k` is in slot `k % capacity` until a later one takes its place. -/
structure Holds (slots : List α) (capacity : Nat) (xs : List α) : Prop where
  size : slots.length = capacity
  slot : ∀ k, k < xs.length → xs.length ≤ k + capacity → slots[k % capacity]? = xs[k]?

theorem holdsEmpty (blank : α) (capacity : Nat) : Holds (List.replicate capacity blank) capacity [] where
  size := List.length_replicate
  slot _ before := absurd before (Nat.not_lt_zero _)

theorem slotApart {k n : Nat} (before : k < n) (kept : n < k + capacity) : k % capacity ≠ n % capacity := by
  intro same
  have gap : (n - k) % capacity = 0 := Nat.sub_mod_eq_zero_of_mod_eq same.symm
  rw [Nat.mod_eq_of_lt (by omega)] at gap
  omega

theorem holdsPush (some_ : 0 < capacity) (holds : Holds slots capacity xs) (x : α) :
    Holds (slots.set (xs.length % capacity) x) capacity (xs ++ [x]) where
  size := (List.length_set ..).trans holds.size
  slot := by
    intro k before kept
    rw [List.length_append, List.length_singleton] at before kept
    rcases Nat.lt_or_eq_of_le (Nat.le_of_lt_succ before) with older | rfl
    · have apart := slotApart older (by omega : xs.length < k + capacity)
      rw [List.getElem?_set_ne (Ne.symm apart), holds.slot k older (by omega), List.getElem?_append_left older]
    · have inside : xs.length % capacity < slots.length := holds.size.symm ▸ Nat.mod_lt _ some_
      rw [List.getElem?_set_self inside, List.getElem?_concat_length]

theorem lastLength (capacity : Nat) (xs : List α) : (lastOf capacity xs).length = min xs.length capacity := by
  rw [lastOf, List.length_drop]
  omega

theorem lastAppend (enough : capacity ≤ xs.length) (older : List α) : lastOf capacity (older ++ xs) = lastOf capacity xs := by
  have past : older.length ≤ older.length + xs.length - capacity := by omega
  rw [lastOf, lastOf, List.length_append, List.drop_append, List.drop_of_length_le past, List.nil_append]
  congr 1
  omega

/-- A list cut back by its first entry when it is too long holds the last entries. -/
theorem lastPush (capacity : Nat) (xs : List α) (x : α) : lastOf capacity (xs ++ [x]) =
    if (lastOf capacity xs ++ [x]).length > capacity then (lastOf capacity xs ++ [x]).drop 1
    else lastOf capacity xs ++ [x] := by
  have kept := lastLength capacity xs
  have least : xs.length - capacity ≤ xs.length := Nat.sub_le _ _
  rw [List.length_append, List.length_singleton, kept, lastOf, lastOf, List.length_append, List.length_singleton,
    ← List.drop_append_of_le_length least]
  split
  · rw [List.drop_drop, show xs.length + 1 - capacity = xs.length - capacity + 1 by omega]
  · rw [show xs.length + 1 - capacity = xs.length - capacity by omega]

/-- The slots backwards from the newest entry. -/
theorem holdsBack (holds : Holds slots capacity xs) {i : Nat} (within : i < min xs.length capacity) :
    slots[(xs.length - 1 - i) % capacity]? = (lastOf capacity xs).reverse[i]? := by
  have inside : i < (lastOf capacity xs).length := (lastLength capacity xs).symm ▸ within
  rw [holds.slot _ (by omega) (by omega), List.getElem?_reverse inside, lastLength, lastOf, List.getElem?_drop]
  congr 1
  omega

theorem wrapBack (some_ : 0 < capacity) {n i : Nat} (before : i < n) (within : i < capacity) :
    (n % capacity + 2 * capacity - 1 - i) % capacity = (n - 1 - i) % capacity := by
  have whole := Nat.div_add_mod n capacity
  have shifted : n % capacity + 2 * capacity - 1 - i + capacity * (n / capacity) = n - 1 - i + capacity * 2 := by
    omega
  rw [← Nat.add_mul_mod_self_left (n % capacity + 2 * capacity - 1 - i) capacity (n / capacity), shifted,
    Nat.add_mul_mod_self_left]

end OmegaLb.BoundedRing
