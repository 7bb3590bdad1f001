import OmegaLb.SyncedRing

/-! bisect_right of lb_policy.bpf.c in its own words of 32 bits, with its mask and its 17 rounds, and the
reset of the index it feeds, against the count they stand for and bisectRight of ring.go. -/
namespace OmegaLb.KernelBisect
open KernelMaps CircularProbe
open RingManager
open RingSelection (bisectRightCut startIndexExact)
open SyncedRing (sameKeysStart)
open Config (load)

variable {F : Type}

/-- The rounds that are left; a break ends them all. -/
def bisectLoop (ring : RingMeta) (pos : UInt32) : Nat → UInt32 → UInt32 → UInt32 × UInt32
  | 0, lo, hi => (lo, hi)
  | left + 1, lo, hi =>
    if lo ≥ hi then (lo, hi)
    else
      let mid := lo + (hi - lo) / 2
      if ring.key (mid &&& 0xFFFF).toNat ≤ pos then bisectLoop ring pos left (mid + 1) hi
      else bisectLoop ring pos left lo mid

/-- `lo` and `hi` where the loop leaves them. -/
def bounds (ring : RingMeta) (pos : UInt32) : UInt32 × UInt32 := bisectLoop ring pos 17 0 ring.size

def bisectRight (ring : RingMeta) (pos : UInt32) : UInt32 := (bounds ring pos).1

/-- `idx` of lb_policy. -/
def startIndex (ring : RingMeta) (pos : UInt32) : UInt32 :=
  let idx := bisectRight ring pos
  if idx ≥ ring.size then 0 else idx

def keysOf (ring : RingMeta) : List UInt32 := (List.range ring.size.toNat).map ring.key

structure SortedKeys (ring : RingMeta) : Prop where
  fits : ring.size.toNat ≤ 65536
  sorted : ∀ (i j : Nat), i ≤ j → j < ring.size.toNat → ring.key i ≤ ring.key j

/-! ### Words -/

theorem midExact {lo hi : UInt32} (below : lo < hi) :
    (lo + (hi - lo) / 2).toNat = lo.toNat + (hi.toNat - lo.toNat) / 2 := by
  have less := UInt32.lt_iff_toNat_lt.mp below
  have bound := hi.toNat_lt
  have half : (2 : UInt32).toNat = 2 := rfl
  rw [UInt32.toNat_add, UInt32.toNat_div, UInt32.toNat_sub_of_le _ _ (UInt32.le_of_lt below), half]
  exact Nat.mod_eq_of_lt (by omega)

theorem maskedExact {mid : UInt32} (inside : mid.toNat < 65536) : (mid &&& 0xFFFF).toNat = mid.toNat := by
  have masked := Nat.and_two_pow_sub_one_eq_mod mid.toNat 16
  rw [UInt32.toNat_and]
  exact masked.trans (Nat.mod_eq_of_lt inside)

theorem nextExact {mid : UInt32} (inside : mid.toNat < 65536) : (mid + 1).toNat = mid.toNat + 1 := by
  have one : (1 : UInt32).toNat = 1 := rfl
  rw [UInt32.toNat_add, one]
  exact Nat.mod_eq_of_lt (by omega)

theorem bisectLoopRefines (ring : RingMeta) (pos : UInt32) {left : Nat} {lo hi : UInt32} (ordered : lo.toNat ≤ hi.toNat)
    (fits : hi.toNat ≤ 65536) (enough : hi.toNat - lo.toNat < 2 ^ left) :
    let run := bisectLoop ring pos left lo hi
    run.1 = run.2 ∧ run.1.toNat = bisect (fun mid => decide (ring.key mid ≤ pos)) left lo.toNat hi.toNat := by
  induction left generalizing lo hi with
  | zero => exact ⟨UInt32.toNat_inj.mp (by simp only [bisectLoop]; omega), rfl⟩
  | succ left ih =>
    rw [Nat.pow_succ] at enough
    rw [bisectLoop, bisect]
    by_cases done : lo ≥ hi
    · have met := UInt32.le_iff_toNat_le.mp done
      rw [if_pos done, if_pos met]
      exact ⟨UInt32.toNat_inj.mp (by dsimp only; omega), rfl⟩
    · have below := UInt32.not_le.mp done
      have less := UInt32.lt_iff_toNat_lt.mp below
      have half := midExact below
      rw [if_neg done, if_neg (show ¬ lo.toNat ≥ hi.toNat by omega), ← half]
      dsimp only
      generalize lo + (hi - lo) / 2 = mid at half ⊢
      rw [maskedExact (by omega)]
      split
      · rename_i low
        have next : (mid + 1).toNat = mid.toNat + 1 := nextExact (by omega)
        rw [if_pos (decide_eq_true low), ← next]
        exact ih (by omega) fits (by omega)
      · rename_i high
        rw [if_neg (by simpa using high)]
        exact ih (by omega) (by omega) (by omega)

/-- The model of the probe loop searches by whole numbers. -/
theorem bisectRightRefines {ring : RingMeta} (fits : ring.size.toNat ≤ 65536) (pos : UInt32) :
    (bounds ring pos).1 = (bounds ring pos).2 ∧ (bisectRight ring pos).toNat = LbPolicy.bisectRight ring pos :=
  bisectLoopRefines ring pos (Nat.zero_le _) fits (by rw [UInt32.toNat_zero]; omega)

theorem startIndexRefines {ring : RingMeta} (fits : ring.size.toNat ≤ 65536) (pos : UInt32) :
    (startIndex ring pos).toNat = LbPolicy.startIndex ring pos := by
  have same := (bisectRightRefines fits pos).2
  unfold startIndex LbPolicy.startIndex
  dsimp only
  rw [← same]
  by_cases past : bisectRight ring pos ≥ ring.size
  · rw [if_pos past, if_pos (UInt32.le_iff_toNat_le.mp past)]
    rfl
  · rw [if_neg past, if_neg fun beyond => past (UInt32.le_iff_toNat_le.mpr beyond)]

/-! ### The array of the manager -/

theorem keysOfAt {m : Manager F} {ring : RingMeta} (same : m.ring.map Vnode.pos = keysOf ring) {i : Nat} {vn : Vnode}
    (found : m.ring[i]? = some vn) : ring.key i = vn.pos := by
  have at_ : (m.ring.map Vnode.pos)[i]? = some vn.pos := by rw [List.getElem?_map, found, Option.map_some]
  rw [same, keysOf, List.getElem?_map, Option.map_eq_some_iff] at at_
  obtain ⟨j, ranged, key⟩ := at_
  obtain ⟨inside, rfl⟩ := List.getElem?_eq_some_iff.mp ranged
  rwa [List.getElem_range] at key

theorem bisectRightExact {ring : RingMeta} (array : SortedKeys ring) (pos : UInt32) :
    (bounds ring pos).1 = (bounds ring pos).2 ∧
    (bisectRight ring pos).toNat = (keysOf ring).countP (fun key => decide (key ≤ pos)) ∧
    ∀ m : Manager F, m.ring.map Vnode.pos = keysOf ring → m.bisectRight pos = .ok (startIndex ring pos).toNat := by
  obtain ⟨met, refines⟩ := bisectRightRefines array.fits pos
  have cut := bisectRightCut array.fits array.sorted pos
  refine ⟨met, ?_, fun m same => ?_⟩
  · rw [refines, keysOf, List.countP_map]
    exact (cutCount cut).symm
  · have size : ring.size.toNat = m.ring.length := by
      rw [← List.length_map (f := Vnode.pos), same, keysOf, List.length_map, List.length_range]
    have sorted : m.ring.Pairwise fun a b => a.pos ≤ b.pos := by
      refine List.pairwise_iff_getElem.mpr fun i j first second before => ?_
      rw [← keysOfAt same (List.getElem?_eq_getElem first), ← keysOfAt same (List.getElem?_eq_getElem second)]
      exact array.sorted i j before.le (by omega)
    rw [startIndexRefines array.fits, startIndexExact array.fits array.sorted]
    exact sameKeysStart sorted size (fun i vn found => keysOfAt same found) pos

/-- An array without an entry to spare. -/
def fullRing : RingMeta := ⟨65536, fun i => UInt32.ofNat i⟩

theorem fullSorted : SortedKeys fullRing where
  fits := Nat.le_refl _
  sorted := by
    intro i j le inside
    have size : fullRing.size.toNat = 65536 := rfl
    have own : ∀ k, k < 65536 → (fullRing.key k).toNat = k := fun k small => by
      have word : (fullRing.key k).toNat = k % 65536 % 2 ^ 32 := UInt32.toNat_ofNat'
      omega
    rw [UInt32.le_iff_toNat_le, own i (by omega), own j (by omega)]
    exact le

def fullManager : Manager ℚ :=
  { newManager (load {}) with ring := (keysOf fullRing).map fun pos => ⟨pos, 1⟩ }

theorem bisectRightFull :
    (bisectRight fullRing 65535).toNat = (keysOf fullRing).countP (fun key => decide (key ≤ 65535)) ∧
      fullManager.bisectRight 65535 = .ok 0 := by
  obtain ⟨_, counted, started⟩ := bisectRightExact (F := ℚ) fullSorted 65535
  have wraps : (startIndex fullRing 65535).toNat = 0 := by decide +kernel
  have same : fullManager.ring.map Vnode.pos = keysOf fullRing := by
    simp only [fullManager, List.map_map]
    exact List.map_id _
  refine ⟨counted, ?_⟩
  rw [started fullManager same, wraps]

end OmegaLb.KernelBisect
