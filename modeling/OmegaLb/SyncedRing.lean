import OmegaLb.RingSelection

/-! The ring in the kernel's maps against the ring of the manager that wrote them: lb_policy
starts where bisectRight starts, and its clockwise order is that of Route. -/
namespace OmegaLb.SyncedRing
open KernelMaps LbPolicy RingSelection CircularProbe
open RingManager RingInvariant RingReference
open Reconcile (haRingMap sortedPositions)

variable {F : Type}

structure Synced (m : Manager F) (k : Kernel) : Prop where
  size : k.ringMeta.size.toNat = m.ring.length
  keys : ∀ i vn, m.ring[i]? = some vn → k.ringMeta.key i = vn.pos
  owners : k.haRing = haRingMap m

variable {m : Manager F} {k : Kernel}

theorem vnodeAt (synced : Synced m k) {i : Nat} (inside : i < k.ringMeta.size.toNat) :
    ∃ vn, m.ring[i]? = some vn := by
  rw [synced.size] at inside
  exact ⟨_, List.getElem?_eq_getElem inside⟩

theorem syncedMapped (synced : Synced m k) {i : Nat} {vn : Vnode} (found : m.ring[i]? = some vn) :
    (k.haRing.lookup (k.ringMeta.key i)).isSome := by
  have written : (vn.pos, vn.backend) ∈ sortedPositions m :=
    List.mem_map.mpr ⟨vn, List.mem_of_getElem? found, rfl⟩
  obtain ⟨id, owner⟩ := GoMap.writeAllKeys written
  rw [synced.keys i vn found, synced.owners]
  exact Option.isSome_iff_exists.mpr ⟨id, owner⟩

theorem syncedWritten (sound : Sound m) (synced : Synced m k) (nonempty : m.ring.length ≠ 0)
    (fits : m.ring.length ≤ 65536) : RingWritten k where
  nonempty := by rw [synced.size]; omega
  fits := by rw [synced.size]; exact fits
  sorted := by
    intro i j le inside
    obtain ⟨a, first⟩ := vnodeAt synced (Nat.lt_of_le_of_lt le inside)
    obtain ⟨b, second⟩ := vnodeAt synced inside
    rw [synced.keys i a first, synced.keys j b second]
    exact sortedGet sound.sorted first second le
  mapped := by
    intro i inside
    obtain ⟨vn, found⟩ := vnodeAt synced inside
    exact syncedMapped synced found

theorem sameKeysStart (sorted : m.ring.Pairwise fun a b => a.pos ≤ b.pos) {ring : RingMeta}
    (size : ring.size.toNat = m.ring.length) (keys : ∀ i vn, m.ring[i]? = some vn → ring.key i = vn.pos)
    (pos : UInt32) : m.bisectRight pos = .ok (start ring pos) := by
  obtain ⟨lo, ok, high, bracketed⟩ := bisectRightBrackets sorted pos
  have cut : Cut (fun i => decide (ring.key i ≤ pos)) ring.size.toNat lo := by
    refine ⟨by rw [size]; exact high, fun i below => ?_, fun i above inside => ?_⟩
    · have found : m.ring[i]? = some _ := List.getElem?_eq_getElem (by omega)
      rw [keys i _ found]
      exact decide_eq_true (bracketed.below i _ found below)
    · have found : m.ring[i]? = some _ := List.getElem?_eq_getElem (by omega)
      rw [keys i _ found]
      exact decide_eq_false (UInt32.not_le.mpr (bracketed.above i _ found above))
  have counted : upperBound ring pos = lo := cutCount cut
  have wrapped : start ring pos = if lo ≥ m.ring.length then 0 else lo := by
    unfold start
    rw [counted, size]
    split
    · rw [show lo = m.ring.length by omega, Nat.mod_self]
    · exact Nat.mod_eq_of_lt (by omega)
  rw [wrapped, ok]

theorem syncedStart (sound : Sound m) (synced : Synced m k) (pos : UInt32) :
    m.bisectRight pos = .ok (start k.ringMeta pos) := sameKeysStart sound.sorted synced.size synced.keys pos

/-- The `i`-th vnode lb_policy should try is the `i`-th that Route tries. -/
theorem syncedClockwise (sound : Sound m) (synced : Synced m k) (nonempty : m.ring.length ≠ 0)
    (pos : UInt32) {i : Nat} {vn : Vnode}
    (found : (RingReference.clockwise m.ring pos)[i]? = some vn) :
    k.ringMeta.key ((start k.ringMeta pos + i) % k.ringMeta.size.toNat) = vn.pos := by
  obtain ⟨idx, ok, _, rotated⟩ := bisectRightRotates sound nonempty pos
  cases ok.symm.trans (syncedStart sound synced pos)
  rw [rotated] at found
  obtain ⟨inside, value⟩ := List.getElem?_eq_some_iff.mp found
  rw [List.getElem_rotate] at value
  refine synced.keys _ vn ?_
  rw [synced.size, Nat.add_comm, ← value]
  exact List.getElem?_eq_getElem _

end OmegaLb.SyncedRing
