import OmegaLb.RingReference

/-! The clockwise owner of a key, and what changes it: removing vnodes of a backend moves
only keys it owned, adding vnodes of a backend moves keys only to it. -/
namespace OmegaLb.RingOwner
open RingManager RingInvariant RingReference
open Clockwise (First fromPoint)
open StepRun (Run)
open Config (RingConfig load)
open RingHash (murmur3Finalise murmur3_32 vnodeKey)

variable {F : Type}

/-- The backend of the vnode at bisectRight of the hashed key. -/
def ownerOf (m : Manager F) (key : UInt32) : Go UInt32 := do
  let idx ← m.bisectRight (murmur3Finalise key)
  let vn ← goIndex m.ring idx
  return vn.backend

theorem memRing {m : Manager F} (sound : Sound m) (vn : Vnode) :
    vn ∈ m.ring ↔ ∃ b, m.backends.lookup vn.backend = some b ∧ vn ∈ b.vnodes := by
  rw [sound.vnodes.mem_iff, List.mem_flatMap]
  constructor
  · rintro ⟨b, registered, own⟩
    obtain ⟨k, found⟩ := GoMap.memValues.mp registered
    have key : k = vn.backend := by rw [(memVnodes own).1, sound.keyed k b found]
    exact ⟨b, key ▸ found, own⟩
  · rintro ⟨b, found, own⟩
    exact ⟨b, GoMap.memValues.mpr ⟨_, found⟩, own⟩

theorem ownerHead {m : Manager F} (sound : Sound m) (nonempty : m.ring ≠ []) (key : UInt32) :
    ∃ vn, (clockwise m.ring (murmur3Finalise key)).head? = some vn ∧ ownerOf m key = .ok vn.backend := by
  have length : m.ring.length ≠ 0 := fun none_ => nonempty (List.length_eq_zero_iff.mp none_)
  obtain ⟨idx, bisect, inside, rotated⟩ := bisectRightRotates sound length (murmur3Finalise key)
  have here : m.ring[idx]? = some m.ring[idx] := List.getElem?_eq_getElem inside
  refine ⟨m.ring[idx], ?_, ?_⟩
  · rw [rotated, List.head?_rotate inside, here]
  · simp only [ownerOf, bisect, goIndexFound here, bind, Except.bind, pure, Except.pure]

theorem sortedPlaces {m : Manager F} (sound : Sound m) :
    m.ring.Pairwise fun a b => placeOf a ≤ placeOf b := sound.sorted.imp UInt32.le_iff_toNat_le.mp

theorem ownerFirst {m : Manager F} (sound : Sound m) (nonempty : m.ring ≠ []) (key : UInt32) :
    ∃ vn, ownerOf m key = .ok vn.backend ∧
      First placeOf (murmur3Finalise key).toNat m.ring vn := by
  obtain ⟨vn, head, owner⟩ := ownerHead sound nonempty key
  exact ⟨vn, owner, Clockwise.headFirst (sortedPlaces sound) head⟩

theorem ownerNone {m : Manager F} (empty : m.ring = []) (key : UInt32) :
    ownerOf m key = .error .indexOutOfRange := by
  simp [ownerOf, Manager.bisectRight, empty, bisectLoop, goIndex, bind, Except.bind, pure, Except.pure]

/-- No two vnodes of different backends share a position. -/
def Apart (bs : GoMap UInt32 Backend) : Prop :=
  ∀ b ∈ GoMap.values bs, ∀ c ∈ GoMap.values bs, ∀ v ∈ b.vnodes, ∀ w ∈ c.vnodes,
    v.pos = w.pos → b.id = c.id

instance (bs : GoMap UInt32 Backend) : Decidable (Apart bs) := by unfold Apart; infer_instance

theorem apartRing {m : Manager F} (sound : Sound m) : Apart m.backends ↔
    ∀ v ∈ m.ring, ∀ w ∈ m.ring, v.pos = w.pos → v.backend = w.backend := by
  constructor
  · intro apart v left w right same
    obtain ⟨b, foundB, ownB⟩ := (memRing sound v).mp left
    obtain ⟨c, foundC, ownC⟩ := (memRing sound w).mp right
    rw [(memVnodes ownB).1, (memVnodes ownC).1]
    exact apart b (GoMap.memValues.mpr ⟨_, foundB⟩) c (GoMap.memValues.mpr ⟨_, foundC⟩) v ownB w ownC same
  · intro apart b registeredB c registeredC v ownB w ownC same
    rw [← (memVnodes ownB).1, ← (memVnodes ownC).1]
    have onRing : ∀ d ∈ GoMap.values m.backends, ∀ u ∈ d.vnodes, u ∈ m.ring := fun d inside u own =>
      sound.vnodes.mem_iff.mpr (List.mem_flatMap.mpr ⟨d, inside, own⟩)
    exact apart v (onRing b registeredB v ownB) w (onRing c registeredC w ownC) same

/-! ### Fewer vnodes of one backend, or more -/

/-- Outside backend `id` both rings have the same entries. -/
structure DiffersAt (m next : Manager F) (id : UInt32) : Prop where
  before : Sound m
  after : Sound next
  apart : Apart m.backends
  elsewhere : ∀ k, k ≠ id → next.backends.lookup k = m.backends.lookup k

theorem entriesElsewhere {m next : Manager F} {id : UInt32} (differs : DiffersAt m next id)
    {vn : Vnode} (other : vn.backend ≠ id) : vn ∈ next.ring ↔ vn ∈ m.ring := by
  rw [memRing differs.before, memRing differs.after, differs.elsewhere _ other]

theorem sameOwner {m : Manager F} (sound : Sound m) (apart : Apart m.backends) {v w : Vnode}
    (left : v ∈ m.ring) (right : w ∈ m.ring) (place : placeOf v = placeOf w) :
    v.backend = w.backend :=
  (apartRing sound).mp apart v left w right (UInt32.toNat_inj.mp place)

theorem ownerWithin {small large : Manager F} (soundSmall : Sound small) (soundLarge : Sound large)
    (within : ∀ vn ∈ small.ring, vn ∈ large.ring)
    (apart : ∀ v ∈ small.ring, ∀ w ∈ small.ring, v.pos = w.pos → v.backend = w.backend) {key : UInt32}
    (kept : ∀ vn ∈ large.ring, ownerOf large key = .ok vn.backend → vn ∈ small.ring) :
    ownerOf small key = ownerOf large key := by
  by_cases empty : large.ring = []
  · have none_ : small.ring = [] :=
      List.eq_nil_iff_forall_not_mem.mpr fun vn inside => by simpa [empty] using within vn inside
    rw [ownerNone empty, ownerNone none_]
  · obtain ⟨v, owner, first⟩ := ownerFirst soundLarge empty key
    have carried := kept v first.inside owner
    -- both rings meet the position of that entry first
    obtain ⟨w, ownerSmall, firstSmall⟩ := ownerFirst soundSmall (List.ne_nil_of_mem carried) key
    have shared := within w firstSmall.inside
    have place := Clockwise.firstsAgree first firstSmall carried shared
    rw [owner, ownerSmall, apart v carried w firstSmall.inside (UInt32.toNat_inj.mp place)]

theorem fewerKeeps {m next : Manager F} {id : UInt32} (differs : DiffersAt m next id)
    (fewer : ∀ vn ∈ next.ring, vn ∈ m.ring) {key : UInt32} (other : ownerOf m key ≠ .ok id) :
    ownerOf next key = ownerOf m key := by
  have apart := (apartRing differs.before).mp differs.apart
  refine ownerWithin differs.after differs.before fewer
    (fun v left w right => apart v (fewer v left) w (fewer w right)) (fun v inside owner => ?_)
  have apartFrom : v.backend ≠ id := fun same => other (same ▸ owner)
  exact (entriesElsewhere differs apartFrom).mpr inside

theorem moreKeeps {m next : Manager F} {id : UInt32} (differs : DiffersAt m next id)
    (more : ∀ vn ∈ m.ring, vn ∈ next.ring) {key : UInt32} (other : ownerOf next key ≠ .ok id) :
    ownerOf next key = ownerOf m key := by
  have apart := (apartRing differs.before).mp differs.apart
  refine (ownerWithin differs.before differs.after more apart fun v inside owner => ?_).symm
  have apartFrom : v.backend ≠ id := fun same => other (same ▸ owner)
  exact (entriesElsewhere differs apartFrom).mp inside

/-! ### The operations -/

theorem vnodesWithin {b c : Backend} (same : c.id = b.id)
    (eligible : c.eligible = true → b.eligible = true) (count : c.vnodeCount ≤ b.vnodeCount) :
    ∀ vn ∈ c.vnodes, vn ∈ b.vnodes := by
  intro vn own
  have admitted := (memVnodes own).2.1
  unfold Backend.vnodes at own ⊢
  rw [if_pos admitted] at own
  rw [if_pos (eligible admitted), ← same]
  obtain ⟨i, inside, made⟩ := List.mem_map.mp own
  rw [List.mem_range] at inside
  exact List.mem_map.mpr ⟨i, List.mem_range.mpr (by omega), made⟩

inductive Shrinks (m : Manager F) (id : UInt32) : Manager F → Prop where
  | remove (rt : Runtime) : Shrinks m id (m.removeBackend rt id)
  | unhealthy (rt : Runtime) : Shrinks m id (m.setHealth rt id false)
  | drain (rt : Runtime) : Shrinks m id (m.setDraining rt id true).1
  | lower (rt : Runtime) (count : Int)
      (lowers : ∀ b, m.backendInfo id = some b → max 1 count ≤ b.vnodeCount) :
      Shrinks m id (m.setVnodeCount rt id count)

inductive Grows (m : Manager F) (id : UInt32) : Manager F → Prop where
  | add (rt : Runtime) (b : Backend) (same : b.id = id) (fresh : id ∉ m.backends) :
      Grows m id (m.addBackend rt b)
  | restore (rt : Runtime) : Grows m id (m.setHealth rt id true)
  | undrain (rt : Runtime) : Grows m id (m.setDraining rt id false).1
  | raise (rt : Runtime) (count : Int)
      (raises : ∀ b, m.backendInfo id = some b → b.vnodeCount ≤ max 1 count) :
      Grows m id (m.setVnodeCount rt id count)

theorem setFieldDiffers {m : Manager F} (sound : Sound m) (apart : Apart m.backends) (rt : Runtime)
    (id : UInt32) (write : Backend → Backend) (sameId : ∀ b, (write b).id = b.id) :
    DiffersAt m (m.setField rt id write) id where
  before := sound
  after := setFieldSound rt sound id write sameId
  apart := apart
  elsewhere := fun k other => by rw [setFieldLookup, if_neg other]

theorem setFieldFewer {m : Manager F} (sound : Sound m) (apart : Apart m.backends) (rt : Runtime)
    (id : UInt32) (write : Backend → Backend) (sameId : ∀ b, (write b).id = b.id)
    (less : ∀ b, m.backendInfo id = some b → ∀ vn ∈ (write b).vnodes, vn ∈ b.vnodes) {key : UInt32}
    (other : ownerOf m key ≠ .ok id) : ownerOf (m.setField rt id write) key = ownerOf m key := by
  have differs := setFieldDiffers sound apart rt id write sameId
  refine fewerKeeps differs (fun vn inside => ?_) other
  obtain ⟨c, found, own⟩ := (memRing differs.after vn).mp inside
  rw [setFieldLookup] at found
  split at found
  · rename_i here
    obtain ⟨b, held, written⟩ := Option.map_eq_some_iff.mp found
    exact (memRing sound vn).mpr ⟨b, here ▸ held, less b held vn (written ▸ own)⟩
  · exact (memRing sound vn).mpr ⟨c, found, own⟩

theorem setFieldMore {m : Manager F} (sound : Sound m) (apart : Apart m.backends) (rt : Runtime)
    (id : UInt32) (write : Backend → Backend) (sameId : ∀ b, (write b).id = b.id)
    (more : ∀ b, m.backendInfo id = some b → ∀ vn ∈ b.vnodes, vn ∈ (write b).vnodes) {key : UInt32}
    (other : ownerOf (m.setField rt id write) key ≠ .ok id) :
    ownerOf (m.setField rt id write) key = ownerOf m key := by
  have differs := setFieldDiffers sound apart rt id write sameId
  refine moreKeeps differs (fun vn inside => ?_) other
  obtain ⟨b, found, own⟩ := (memRing sound vn).mp inside
  rw [memRing differs.after, setFieldLookup]
  split
  · rename_i here
    have held : m.backendInfo id = some b := here ▸ found
    exact ⟨write b, Option.map_eq_some_iff.mpr ⟨b, held, rfl⟩, more b held vn own⟩
  · exact ⟨b, found, own⟩

theorem shrinkKeeps {m next : Manager F} {id : UInt32} (sound : Sound m) (apart : Apart m.backends)
    (shrinks : Shrinks m id next) {key : UInt32} (other : ownerOf m key ≠ .ok id) :
    ownerOf next key = ownerOf m key := by
  cases shrinks with
  | remove rt =>
    have after := removeBackendSound rt sound id
    have kept : ∀ k, k ≠ id → (m.removeBackend rt id).backends.lookup k = m.backends.lookup k :=
      fun k apartFrom => AList.lookup_erase_ne apartFrom
    refine fewerKeeps ⟨sound, after, apart, kept⟩ (fun vn inside => ?_) other
    obtain ⟨c, found, own⟩ := (memRing after vn).mp inside
    by_cases here : vn.backend = id
    · have gone : (m.removeBackend rt id).backends.lookup id = none := AList.lookup_erase _ _
      rw [here, gone] at found
      contradiction
    · exact (memRing sound vn).mpr ⟨c, (kept _ here) ▸ found, own⟩
  | unhealthy rt =>
    refine setFieldFewer sound apart rt id _ (fun b => ?_) (fun b _ => ?_) other
    · rfl
    exact vnodesWithin rfl (by simp [Backend.eligible]) (Int.le_refl _)
  | drain rt =>
    refine setFieldFewer sound apart rt id _ (fun b => ?_) (fun b _ => ?_) other
    · rfl
    exact vnodesWithin rfl (by simp [Backend.eligible]) (Int.le_refl _)
  | lower rt count lowers =>
    refine setFieldFewer sound apart rt id _ (fun b => ?_) (fun b held => ?_) other
    · rfl
    have bound := lowers b held
    refine vnodesWithin rfl (fun admitted => admitted) ?_
    dsimp only
    split <;> omega

theorem growKeeps {m next : Manager F} {id : UInt32} (sound : Sound m) (apart : Apart m.backends)
    (grows : Grows m id next) {key : UInt32} (other : ownerOf next key ≠ .ok id) :
    ownerOf next key = ownerOf m key := by
  cases grows with
  | add rt b same fresh =>
    have after := addBackendSound rt sound b
    have kept : ∀ k, k ≠ id → (m.addBackend rt b).backends.lookup k = m.backends.lookup k :=
      fun k apartFrom => by rw [addBackendLookups, if_neg (same ▸ apartFrom)]
    refine moreKeeps ⟨sound, after, apart, kept⟩ (fun vn inside => ?_) other
    obtain ⟨c, found, own⟩ := (memRing sound vn).mp inside
    have apartFrom : vn.backend ≠ id := fun here =>
      fresh (here ▸ AList.lookup_isSome.mp (by simp [found]))
    exact (memRing after vn).mpr ⟨c, (kept _ apartFrom).trans found, own⟩
  | restore rt =>
    refine setFieldMore sound apart rt id _ (fun b => ?_) (fun b _ => ?_) other
    · rfl
    refine vnodesWithin rfl (fun admitted => ?_) (Int.le_refl _)
    simp only [Backend.eligible, Bool.and_eq_true] at admitted ⊢
    exact ⟨trivial, admitted.2⟩
  | undrain rt =>
    refine setFieldMore sound apart rt id _ (fun b => ?_) (fun b _ => ?_) other
    · rfl
    refine vnodesWithin rfl (fun admitted => ?_) (Int.le_refl _)
    simp only [Backend.eligible, Bool.and_eq_true] at admitted ⊢
    exact ⟨admitted.1, rfl⟩
  | raise rt count raises =>
    refine setFieldMore sound apart rt id _ (fun b => ?_) (fun b held => ?_) other
    · rfl
    have bound := raises b held
    refine vnodesWithin rfl (fun admitted => admitted) ?_
    dsimp only
    split <;> omega

variable [GoFloat F]

theorem minimalDisruption {cfg : RingConfig F} {ops m} (run : Run Step (newManager cfg) ops m)
    (apart : Apart m.backends) (id : UInt32) :
    (∀ next, Shrinks m id next → ∀ key, ownerOf m key ≠ .ok id → ownerOf next key = ownerOf m key) ∧
    ∀ next, Grows m id next → ∀ key, ownerOf next key ≠ .ok id → ownerOf next key = ownerOf m key :=
  ⟨fun _ shrinks _ other => shrinkKeeps (runSound run) apart shrinks other,
    fun _ grows _ other => growKeeps (runSound run) apart grows other⟩

def twoServers : Manager ℚ :=
  ((newManager (load { vnodesPerServer := some 1 })).addBackend .plain { id := 1, health := true }).addBackend
    .plain { id := 2, health := true }

theorem twoServersDisruption :
    (∀ next, Shrinks twoServers 2 next → ∀ key, ownerOf twoServers key ≠ .ok 2 →
      ownerOf next key = ownerOf twoServers key) ∧
    ∀ next, Grows twoServers 2 next → ∀ key, ownerOf next key ≠ .ok 2 →
      ownerOf next key = ownerOf twoServers key := by
  have run : Run Step (newManager (load { vnodesPerServer := some 1 }) : Manager ℚ)
      [(.plain, .addBackend { id := 1, health := true }),
        (.plain, .addBackend { id := 2, health := true })] twoServers := .cons rfl (.cons rfl (.nil _))
  exact minimalDisruption run (by decide +kernel) 2

end OmegaLb.RingOwner
