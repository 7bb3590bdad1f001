import OmegaLb.CircularProbe
import OmegaLb.RingHash
import Mathlib.Data.List.GetD
import Mathlib.Data.List.Sort

/-! HAring of the Python proxy: every healthy backend holds its virtual nodes on the ring, which is
built again whenever a count or a health flag changes. -/
namespace OmegaLb.HaRing
open CircularProbe (bisect)
open GoText (Bytes ascii decimal)
open RingHash (rotl littleEndian murmurBlocks murmur3Finalise)

/-- The bytes left over, filled up with zeros. -/
def tailWord (tail : Bytes) : UInt32 :=
  littleEndian (tail.getD 0 0) (tail.getD 1 0) (tail.getD 2 0) (tail.getD 3 0)

def murmur3_32 (data : Bytes) (seed : UInt32) : UInt32 :=
  let (h, tail) := murmurBlocks seed data
  let h := if tail = [] then h else h ^^^ (rotl (tailWord tail * 0xcc9e2d51) 15 * 0x1b873593)
  murmur3Finalise (h ^^^ UInt32.ofNat data.length)

abbrev Point := UInt32 × Nat

def Before (a b : Point) : Prop := a.1 < b.1 ∨ a.1 = b.1 ∧ a.2 ≤ b.2

instance (a b : Point) : Decidable (Before a b) := inferInstanceAs (Decidable (_ ∨ _))

def vnodeKey (backendId v : Nat) : Bytes := decimal backendId ++ ascii "#" ++ decimal v

def pointsOf (backendId count : Nat) : List Point :=
  (List.range count).map fun v => (murmur3_32 (vnodeKey backendId v) 0, backendId)

def rebuild (vnodes : List Nat) (health : List Bool) : List Point :=
  List.insertionSort Before ((List.range vnodes.length).flatMap fun i =>
    if health.getD i false then pointsOf i (vnodes.getD i 0) else [])

structure HAring where
  vnodes : List Nat
  health : List Bool
  ring : List Point
  backends : health.length = vnodes.length
  clamped : ∀ count ∈ vnodes, 10 ≤ count ∧ count ≤ 300
  built : ring = rebuild vnodes health

def HAring.n (r : HAring) : Nat := r.vnodes.length

def start (n vnodesPer : Nat) (within : 10 ≤ vnodesPer ∧ vnodesPer ≤ 300) : HAring where
  vnodes := List.replicate n vnodesPer
  health := List.replicate n true
  ring := rebuild (List.replicate n vnodesPer) (List.replicate n true)
  backends := by simp
  clamped count inside := (List.eq_of_mem_replicate inside).symm ▸ within
  built := rfl

theorem fewVnodes : 10 ≤ 10 ∧ 10 ≤ 300 := by decide

/-- An index of a Python list; a negative one counts from its end. -/
def pyIndex (n : Nat) (i : Int) : Option Nat :=
  if 0 ≤ i then if i < n then some i.toNat else none
  else if 0 ≤ n + i then some (n + i).toNat else none

def clamp (count : Int) : Nat := (max 10 (min 300 count)).toNat

def HAring.putVnodes (r : HAring) (k : Nat) (count : Int) : HAring where
  vnodes := r.vnodes.set k (clamp count)
  health := r.health
  ring := rebuild (r.vnodes.set k (clamp count)) r.health
  backends := by simp [r.backends]
  clamped c inside := by
    rcases List.mem_or_eq_of_mem_set inside with old | rfl
    · exact r.clamped c old
    · unfold clamp
      omega
  built := rfl

def HAring.putHealth (r : HAring) (k : Nat) (healthy : Bool) : HAring where
  vnodes := r.vnodes
  health := r.health.set k healthy
  ring := rebuild r.vnodes (r.health.set k healthy)
  backends := by simp [r.backends]
  clamped := r.clamped
  built := rfl

/-- `none` is an IndexError. -/
def HAring.setVnodes (r : HAring) (backendId count : Int) : Option HAring :=
  (pyIndex r.n backendId).map (r.putVnodes · count)

def HAring.setHealth (r : HAring) (backendId : Int) (healthy : Bool) : Option HAring :=
  (pyIndex r.n backendId).map (r.putHealth · healthy)

def HAring.route (r : HAring) (key : Bytes) : Nat :=
  if r.ring = [] then 0
  else
    let h := murmur3_32 key 0
    let lo := bisect (fun mid => decide ((r.ring.getD mid (0, 0)).1 < h)) r.ring.length 0 r.ring.length
    (r.ring.getD (lo % r.ring.length) (0, 0)).2

/-! ### What is on the ring -/

theorem pyIndexInside {n k : Nat} {i : Int} (found : pyIndex n i = some k) : k < n := by
  unfold pyIndex at found
  split at found <;> split at found <;> cases found <;> omega

theorem rebuildMember {vnodes : List Nat} {health : List Bool} {pos : UInt32} {i : Nat} :
    (pos, i) ∈ rebuild vnodes health ↔
      i < vnodes.length ∧ health.getD i false = true ∧
        ∃ v < vnodes.getD i 0, murmur3_32 (vnodeKey i v) 0 = pos := by
  rw [rebuild, (List.perm_insertionSort _ _).mem_iff, List.mem_flatMap]
  constructor
  · rintro ⟨j, inside, listed⟩
    split at listed
    · rename_i healthy
      obtain ⟨v, below, same⟩ := List.mem_map.mp listed
      obtain ⟨rfl, rfl⟩ := Prod.mk.inj same
      exact ⟨List.mem_range.mp inside, healthy, v, List.mem_range.mp below, rfl⟩
    · contradiction
  · rintro ⟨inside, healthy, v, below, rfl⟩
    refine ⟨i, List.mem_range.mpr inside, ?_⟩
    rw [if_pos healthy]
    exact List.mem_map.mpr ⟨v, List.mem_range.mpr below, rfl⟩

theorem ringMember (r : HAring) {pos : UInt32} {i : Nat} (listed : (pos, i) ∈ r.ring) :
    i < r.n ∧ r.health.getD i false = true := by
  rw [r.built, rebuildMember] at listed
  exact ⟨listed.1, listed.2.1⟩

theorem ringNonempty (r : HAring) {i : Nat} (healthy : r.health.getD i false = true) : r.ring ≠ [] := by
  have inside : i < r.vnodes.length := by
    rw [← r.backends]
    by_contra beyond
    rw [List.getD_eq_default _ _ (Nat.not_lt.mp beyond)] at healthy
    exact Bool.false_ne_true healthy
  have count := r.clamped (r.vnodes.getD i 0) (by
    rw [List.getD_eq_getElem _ _ inside]
    exact List.getElem_mem inside)
  have listed : (murmur3_32 (vnodeKey i 0) 0, i) ∈ r.ring := by
    rw [r.built, rebuildMember]
    exact ⟨inside, healthy, 0, by omega, rfl⟩
  exact List.ne_nil_of_mem listed

theorem routeListed (r : HAring) (nonempty : r.ring ≠ []) (key : Bytes) : ∃ pos, (pos, r.route key) ∈ r.ring := by
  unfold HAring.route
  rw [if_neg nonempty]
  dsimp only
  have within := Nat.mod_lt (bisect (fun mid => decide ((r.ring.getD mid (0, 0)).1 < murmur3_32 key 0))
    r.ring.length 0 r.ring.length) (List.length_pos_iff.mpr nonempty)
  rw [List.getD_eq_getElem _ _ within]
  exact ⟨_, List.getElem_mem within⟩

theorem routeHealthy (r : HAring) {i : Nat} (healthy : r.health.getD i false = true) (key : Bytes) :
    r.health.getD (r.route key) false = true := by
  obtain ⟨pos, listed⟩ := routeListed r (ringNonempty r healthy) key
  exact (ringMember r listed).2

theorem routeInside (r : HAring) (some_ : 0 < r.n) (key : Bytes) : r.route key < r.n := by
  by_cases empty : r.ring = []
  · rw [HAring.route, if_pos empty]
    exact some_
  · obtain ⟨pos, listed⟩ := routeListed r empty key
    exact (ringMember r listed).1

end OmegaLb.HaRing
