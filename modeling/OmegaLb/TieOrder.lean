import OmegaLb.RingOwner
import Mathlib.Data.Prod.Lex

/-! When the routing of a set of backends is the same on every node: the comparator of rebuild
leaves vnodes at one position in any order, so it is exactly when no two backends share one. -/
namespace OmegaLb.TieOrder
open RingManager RingInvariant RingRoute RingReference RingOwner
open Clockwise (First arc fromPoint sortBy sortBySorted)
open StepRun (Run)
open Config (RingConfig load)
open RingHash (murmur3Finalise murmur3FinaliseOnto murmur3_32 vnodeKey)

variable {F : Type}

structure SameBackends (m n : Manager F) : Prop where
  cfg : n.cfg = m.cfg
  backends : ∀ k, n.backends.lookup k = m.backends.lookup k

/-! ### A sort that favours one backend among equal positions -/

def favour (id : UInt32) (vn : Vnode) : ℕ ×ₗ Bool := toLex (placeOf vn, decide (vn.backend ≠ id))

theorem favourPlace {id : UInt32} {a b : Vnode} (le : favour id a ≤ favour id b) : a.pos ≤ b.pos := by
  apply UInt32.le_iff_toNat_le.mpr
  rcases Prod.Lex.le_iff.mp le with lt | ⟨same, _⟩
  · exact Nat.le_of_lt lt
  · exact Nat.le_of_eq same

def favouring (id : UInt32) : Runtime where
  order := fun bs => bs
  orderPerm := fun _ => .rfl
  keyOrder := fun ks => ks
  keyOrderPerm := fun _ => .rfl
  sort := sortBy (favour id)
  sortPerm := fun vs => List.mergeSort_perm vs _
  sorted := fun vs => (sortBySorted (favour id) vs).imp favourPlace

/-- A point between the flags at a position does not cut it. -/
theorem favourBeyond (id : UInt32) (pos : ℕ) (vn : Vnode) :
    toLex (pos, true) < favour id vn ↔ pos < placeOf vn := by
  rw [Prod.Lex.lt_iff]
  simp [favour]

theorem favourPoint (id pos : UInt32) (ring : List Vnode) :
    clockwise ring pos = fromPoint (favour id) (toLex (pos.toNat, true)) ring := by
  unfold clockwise fromPoint
  simp only [← not_lt, favourBeyond]

/-- The position after `p - 1` is `p`, around the top as well. -/
theorem nextPosition (p q : UInt32) :
    arc (p - 1).toNat p.toNat ≤ arc (p - 1).toNat q.toNat := by
  have high := q.toNat_lt
  by_cases zero : p = 0
  · subst zero
    have last : (0 - 1 : UInt32).toNat = 2 ^ 32 - 1 := by decide
    rw [last]
    exact Clockwise.arcWithin (iff_of_false (by simp) (by omega)) (Nat.zero_le _)
  · have positive : p.toNat ≠ 0 := fun none_ => zero (UInt32.toNat_inj.mp none_)
    have before : (p - 1).toNat = p.toNat - 1 :=
      UInt32.toNat_sub_of_le p 1 (UInt32.le_iff_toNat_le.mpr (Nat.pos_of_ne_zero positive))
    rw [before]
    by_cases beyond : p.toNat - 1 < q.toNat
    · exact Clockwise.arcWithin (iff_of_true (by omega) beyond) (by omega)
    · exact Clockwise.arcBeyond (by omega) (not_lt.mp beyond)

/-! ### A shared position splits the nodes -/

theorem favouredOwner {m : Manager F} (keyed : KeyedById m.backends) {b : Backend}
    (registered : b ∈ GoMap.values m.backends) {v : Vnode} (own : v ∈ b.vnodes) {key : UInt32}
    (before : murmur3Finalise key = v.pos - 1) :
    ownerOf (m.rebuild (favouring b.id)) key = .ok b.id := by
  have sound : Sound (m.rebuild (favouring b.id)) := rebuildSound _ keyed
  have onRing : v ∈ (m.rebuild (favouring b.id)).ring :=
    sound.vnodes.mem_iff.mpr (List.mem_flatMap.mpr ⟨b, registered, own⟩)
  have owned : v.backend = b.id := (memVnodes own).1
  obtain ⟨x, head, owner⟩ := ownerHead sound (List.ne_nil_of_mem onRing) key
  have first := Clockwise.headFirst (sortedPlaces sound) head
  have place : placeOf x = placeOf v := by
    refine Clockwise.arcInjective (le_antisymm (first.soonest v onRing) ?_)
    rw [before]
    exact nextPosition v.pos x.pos
  -- among the entries at this position the favoured ones come first
  rw [favourPoint b.id] at head
  have finer := (Clockwise.headFirst (sortBySorted (favour b.id) _) head).soonest v onRing
  have le : favour b.id x ≤ favour b.id v := by
    refine Clockwise.arcSide finer ?_
    rw [favourBeyond, favourBeyond, place]
  rw [owner]
  rcases Prod.Lex.le_iff.mp le with lt | ⟨_, flag⟩
  · simp [favour, place] at lt
  · have favoured : x.backend = b.id := by
      by_contra differ
      simp only [favour, owned, differ, ne_eq, not_false_eq_true, decide_true, ofLex_toLex,
        not_true_eq_false, decide_false] at flag
      exact absurd flag (by decide)
    rw [favoured]

theorem tieSplits {m : Manager F} (keyed : KeyedById m.backends) {b c : Backend}
    (left : b ∈ GoMap.values m.backends) (right : c ∈ GoMap.values m.backends) {v w : Vnode}
    (ownLeft : v ∈ b.vnodes) (ownRight : w ∈ c.vnodes) (tied : v.pos = w.pos) (differ : b.id ≠ c.id) :
    ∃ rt rt' key, ownerOf (m.rebuild rt) key ≠ ownerOf (m.rebuild rt') key := by
  obtain ⟨key, before⟩ := murmur3FinaliseOnto (v.pos - 1)
  refine ⟨favouring b.id, favouring c.id, key, ?_⟩
  rw [favouredOwner keyed left ownLeft before, favouredOwner keyed right ownRight (tied ▸ before)]
  exact fun same => differ (Except.ok.inj same)

/-! ### Positions apart decide the owner and the probe -/

theorem sameRing {m n : Manager F} (before : Sound m) (after : Sound n) (same : SameBackends m n) :
    ∀ vn, vn ∈ n.ring ↔ vn ∈ m.ring := by
  intro vn
  rw [memRing before, memRing after, same.backends]

theorem sameOwnerEverywhere {m n : Manager F} (before : Sound m) (after : Sound n)
    (same : SameBackends m n) (apart : Apart m.backends) (key : UInt32) :
    ownerOf m key = ownerOf n key := by
  have members := sameRing before after same
  exact ownerWithin before after (fun vn inside => (members vn).mpr inside) ((apartRing before).mp apart)
    fun vn inside _ => (members vn).mp inside

variable [GoFloat F]

def choiceOf (m : Manager F) (key : UInt32) : Go (Option Backend) := do
  let idx ← m.bisectRight (murmur3Finalise key)
  m.probeRing idx m.ring.length 0

theorem choiceFinds {m : Manager F} (sound : Sound m) (key : UInt32) :
    choiceOf m key = .ok (((clockwise m.ring (murmur3Finalise key)).find? (admits m)).bind fun vn =>
      m.backends.lookup vn.backend) := by
  by_cases empty : m.ring = []
  · simp [choiceOf, Manager.bisectRight, empty, bisectLoop, Manager.probeRing, clockwise, fromPoint,
      bind, Except.bind, pure, Except.pure]
  · have length : m.ring.length ≠ 0 := fun none_ => empty (List.length_eq_zero_iff.mp none_)
    obtain ⟨idx, bisect, _, rotated⟩ := bisectRightRotates sound length (murmur3Finalise key)
    have probed := probeRingFinds sound idx m.ring.length 0 (Nat.zero_add _)
    rw [List.drop_zero, ← rotated] at probed
    simp only [choiceOf, bisect, probed, bind, Except.bind]

theorem sameAdmits {m n : Manager F} (same : SameBackends m n) : admits n = admits m := by
  have entries := GoMap.entriesPerm same.backends
  have bound : loadBound n = loadBound m := by
    unfold loadBound Manager.totalActiveReqs GoMap.size GoMap.values
    rw [same.cfg, entries.length_eq, ((entries.map Sigma.snd).map Backend.activeReqs).sum_eq]
  funext vn
  unfold admits withinBound
  rw [same.backends, bound]

theorem sameChoice {m n : Manager F} (before : Sound m) (after : Sound n) (same : SameBackends m n)
    (apart : Apart m.backends) (key : UInt32) : choiceOf m key = choiceOf n key := by
  have members := sameRing before after same
  have found : ∀ {o : Manager F} {p : Vnode → Bool} {vn : Vnode}, Sound o →
      (clockwise o.ring (murmur3Finalise key)).find? p = some vn →
      First placeOf (murmur3Finalise key).toNat (o.ring.filter p) vn :=
    fun sound hit => Clockwise.foundFirst (sortedPlaces sound) hit
  have onRing : ∀ {o : Manager F} {vn : Vnode}, vn ∈ clockwise o.ring (murmur3Finalise key) ↔
      vn ∈ o.ring := (Clockwise.fromPointPerm _ _ _).mem_iff
  rw [choiceFinds before, choiceFinds after, sameAdmits same]
  cases left : (clockwise m.ring (murmur3Finalise key)).find? (admits m) with
  | none =>
    have right : (clockwise n.ring (murmur3Finalise key)).find? (admits m) = none := by
      rw [List.find?_eq_none] at left ⊢
      exact fun vn inside => left vn (onRing.mpr ((members vn).mp (onRing.mp inside)))
    rw [right]
    rfl
  | some v =>
    have firstV := found before left
    obtain ⟨insideV, admitted⟩ := List.mem_filter.mp firstV.inside
    have carried : v ∈ n.ring.filter (admits m) :=
      List.mem_filter.mpr ⟨(members v).mpr insideV, admitted⟩
    have hit : ((clockwise n.ring (murmur3Finalise key)).find? (admits m)).isSome = true :=
      List.find?_isSome.mpr ⟨v, onRing.mpr ((members v).mpr insideV), admitted⟩
    obtain ⟨w, right⟩ := Option.isSome_iff_exists.mp hit
    have firstW := found after right
    obtain ⟨insideW, admittedW⟩ := List.mem_filter.mp firstW.inside
    have shared : w ∈ m.ring := (members w).mp insideW
    have place := Clockwise.firstsAgree firstV firstW carried (List.mem_filter.mpr ⟨shared, admittedW⟩)
    have owner := sameOwner before apart insideV shared place
    rw [right, Option.bind_some, Option.bind_some, same.backends, owner]

/-- Every node that rebuilds its ring from these backends finds the same owner for every key,
and the same admissible one. -/
def Determined (m : Manager F) : Prop :=
  ∀ n, SameBackends m n → ∀ (rt rt' : Runtime) (key : UInt32),
    ownerOf (m.rebuild rt) key = ownerOf (n.rebuild rt') key ∧
      choiceOf (m.rebuild rt) key = choiceOf (n.rebuild rt') key

theorem determinedExact {m : Manager F} (keyed : KeyedById m.backends) :
    Determined m ↔ Apart m.backends := by
  constructor
  · intro determined b left c right v ownLeft w ownRight tied
    by_contra differ
    obtain ⟨rt, rt', key, split⟩ := tieSplits keyed left right ownLeft ownRight tied differ
    exact split (determined m ⟨rfl, fun _ => rfl⟩ rt rt' key).1
  · intro apart n same rt rt' key
    have other : KeyedById n.backends := fun k b found => keyed k b ((same.backends k).symm.trans found)
    have before : Sound (m.rebuild rt) := rebuildSound rt keyed
    have after : Sound (n.rebuild rt') := rebuildSound rt' other
    have rebuilt : SameBackends (m.rebuild rt) (n.rebuild rt') := ⟨same.cfg, same.backends⟩
    exact ⟨sameOwnerEverywhere before after rebuilt apart key,
      sameChoice before after rebuilt apart key⟩

theorem twoServersDetermined : Determined twoServers :=
  (determinedExact (by
    refine keyedInsert (keyedInsert (fun k b found => ?_) _) _
    simp [newManager] at found)).mpr (by decide +kernel)

/-! ### Two backends of the default size that share a position -/

def sharing : Manager ℚ :=
  ((newManager (load {})).addBackend .plain { id := 19, health := true }).addBackend
    .plain { id := 457, health := true }

def sharer (id : UInt32) : Backend := { id := id, health := true, vnodeCount := 150 }

/-- Vnode 27 of backend 19 and vnode 77 of backend 457 share a position. -/
theorem sharingUndetermined : (∃ ops, Run Step (newManager (load {})) ops sharing) ∧
    ¬ Determined sharing := by
  have run : Run Step (newManager (load {}) : Manager ℚ)
      [(.plain, .addBackend { id := 19, health := true }),
        (.plain, .addBackend { id := 457, health := true })] sharing := .cons rfl (.cons rfl (.nil _))
  refine ⟨⟨_, run⟩, fun determined => ?_⟩
  have left : sharer 19 ∈ GoMap.values sharing.backends := by decide +kernel
  have right : sharer 457 ∈ GoMap.values sharing.backends := by decide +kernel
  have ownLeft : ⟨483304950, 19⟩ ∈ (sharer 19).vnodes :=
    List.mem_map.mpr ⟨27, List.mem_range.mpr (by decide), by decide +kernel⟩
  have ownRight : ⟨483304950, 457⟩ ∈ (sharer 457).vnodes :=
    List.mem_map.mpr ⟨77, List.mem_range.mpr (by decide), by decide +kernel⟩
  obtain ⟨rt, rt', key, split⟩ :=
    tieSplits (runSound run).keyed left right ownLeft ownRight rfl (by decide)
  exact split (determined sharing ⟨rfl, fun _ => rfl⟩ rt rt' key).1

end OmegaLb.TieOrder
