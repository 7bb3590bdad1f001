import OmegaLb.RingManager
import OmegaLb.StepRun

/-! What every operation of the manager keeps: backends stored under their own
ids, and a ring that is the sorted list of the vnodes of the eligible ones. -/
namespace OmegaLb.RingInvariant
open RingManager
open Config (RingConfig)

variable {F : Type}

def KeyedById (bs : GoMap UInt32 Backend) : Prop := ∀ k b, bs.lookup k = some b → b.id = k

structure Sound (m : Manager F) : Prop where
  keyed : KeyedById m.backends
  vnodes : m.ring.Perm ((GoMap.values m.backends).flatMap Backend.vnodes)
  sorted : m.ring.Pairwise fun a b => a.pos ≤ b.pos

/-! ### Keys -/

theorem keyedInsert {bs : GoMap UInt32 Backend} (keyed : KeyedById bs) (b : Backend) :
    KeyedById (bs.insert b.id b) := by
  intro k c found
  by_cases same : k = b.id
  · subst same
    rw [AList.lookup_insert] at found
    rw [← Option.some.inj found]
  · rw [AList.lookup_insert_ne same] at found
    exact keyed k c found

theorem keyedErase {bs : GoMap UInt32 Backend} (keyed : KeyedById bs) (id : UInt32) :
    KeyedById (bs.erase id) := by
  intro k c found
  by_cases same : k = id
  · subst same
    simp at found
  · rw [AList.lookup_erase_ne same] at found
    exact keyed k c found

theorem keyedMapValues {bs : GoMap UInt32 Backend} (keyed : KeyedById bs)
    (f : UInt32 → Backend → Backend) (sameId : ∀ k b, (f k b).id = b.id) :
    KeyedById (GoMap.mapValues bs f) := by
  intro k c found
  rw [GoMap.lookupMapValues, Option.map_eq_some_iff] at found
  obtain ⟨b, original, written⟩ := found
  rw [← written, sameId]
  exact keyed k b original

theorem keyedModify {bs : GoMap UInt32 Backend} (keyed : KeyedById bs) (id : UInt32)
    (f : Backend → Backend) (sameId : ∀ b, (f b).id = b.id) :
    KeyedById (GoMap.modify bs id f) := by
  apply keyedMapValues keyed
  intro k b
  split
  · exact sameId b
  · rfl

/-! ### The ring -/

@[simp] theorem rebuildBackends (rt : Runtime) (m : Manager F) :
    (m.rebuild rt).backends = m.backends := rfl

theorem rebuildSound (rt : Runtime) {m : Manager F} (keyed : KeyedById m.backends) :
    Sound (m.rebuild rt) where
  keyed := keyed
  vnodes := (rt.sortPerm _).trans ((rt.orderPerm _).flatMap_right _)
  sorted := rt.sorted _

theorem quietWriteSound {m : Manager F} (sound : Sound m) (id : UInt32) (f : Backend → Backend)
    (sameId : ∀ b, (f b).id = b.id) (sameVnodes : ∀ b, (f b).vnodes = b.vnodes) (reqCount : Int) :
    Sound { m with backends := GoMap.modify m.backends id f, reqCount := reqCount } where
  keyed := keyedModify sound.keyed id f sameId
  vnodes := by
    rw [GoMap.flatMapModify _ _ _ _ sameVnodes]
    exact sound.vnodes
  sorted := sound.sorted

theorem memVnodes {b : Backend} {vn : Vnode} (member : vn ∈ b.vnodes) :
    vn.backend = b.id ∧ b.eligible = true ∧ 1 ≤ b.vnodeCount := by
  unfold Backend.vnodes at member
  split at member
  · rename_i eligible
    obtain ⟨i, inside, same⟩ := List.mem_map.mp member
    rw [List.mem_range] at inside
    exact ⟨by rw [← same], eligible, by omega⟩
  · simp at member

theorem vnodesNonempty {b : Backend} (eligible : b.eligible = true) (count : 1 ≤ b.vnodeCount) :
    ∃ vn ∈ b.vnodes, vn.backend = b.id := by
  unfold Backend.vnodes
  rw [if_pos eligible]
  exact ⟨_, List.mem_map.mpr ⟨0, List.mem_range.mpr (by omega), rfl⟩, rfl⟩

def Owner (m : Manager F) (id : UInt32) : Prop := ∃ vn ∈ m.ring, vn.backend = id

theorem ownerExact {m : Manager F} (sound : Sound m) (id : UInt32) :
    Owner m id ↔ ∃ b, m.backends.lookup id = some b ∧ b.eligible = true ∧ 1 ≤ b.vnodeCount := by
  constructor
  · rintro ⟨vn, onRing, owner⟩
    obtain ⟨b, registered, own⟩ := List.mem_flatMap.mp (sound.vnodes.mem_iff.mp onRing)
    obtain ⟨k, found⟩ := GoMap.memValues.mp registered
    obtain ⟨same, eligible, count⟩ := memVnodes own
    have key : k = id := by rw [← sound.keyed k b found, ← same, owner]
    exact ⟨b, key ▸ found, eligible, count⟩
  · rintro ⟨b, found, eligible, count⟩
    obtain ⟨vn, own, same⟩ := vnodesNonempty eligible count
    refine ⟨vn, sound.vnodes.mem_iff.mpr ?_, same.trans (sound.keyed id b found)⟩
    exact List.mem_flatMap.mpr ⟨b, GoMap.memValues.mpr ⟨id, found⟩, own⟩

theorem ringRegistered {m : Manager F} (sound : Sound m) {vn : Vnode} (onRing : vn ∈ m.ring) :
    ∃ b, m.backends.lookup vn.backend = some b ∧ b.eligible = true := by
  obtain ⟨b, found, eligible, _⟩ := (ownerExact sound vn.backend).mp ⟨vn, onRing, rfl⟩
  exact ⟨b, found, eligible⟩

theorem tableSound {m : Manager F} (sound : Sound m) (table : GoMap UInt32 RestoreState) :
    Sound { m with slowStart.restoring := table } :=
  ⟨sound.keyed, sound.vnodes, sound.sorted⟩

theorem addBackendLookups (rt : Runtime) (m : Manager F) (b : Backend) (k : UInt32) :
    (m.addBackend rt b).backends.lookup k = if k = b.id then
      some { b with vnodeCount := if b.id ∈ m.backends then b.vnodeCount else m.cfg.vnodesPerServer }
    else m.backends.lookup k := by
  unfold Manager.addBackend
  dsimp only
  by_cases known : b.id ∈ m.backends
  · simp only [if_pos known, rebuildBackends]
    split
    · subst k
      exact AList.lookup_insert _
    · exact AList.lookup_insert_ne ‹_›
  · simp only [if_neg known, rebuildBackends]
    split
    · subst k
      exact AList.lookup_insert _
    · exact AList.lookup_insert_ne ‹_›

theorem addBackendLookup (rt : Runtime) (m : Manager F) (b : Backend) (fresh : b.id ∉ m.backends) :
    (m.addBackend rt b).backends.lookup b.id = some { b with vnodeCount := m.cfg.vnodesPerServer } := by
  rw [addBackendLookups, if_pos rfl, if_neg fresh]

theorem setFieldLookup (rt : Runtime) (m : Manager F) (id k : UInt32) (write : Backend → Backend) :
    (m.setField rt id write).backends.lookup k =
      if k = id then (m.backends.lookup id).map write else m.backends.lookup k := by
  unfold Manager.setField
  split
  · rw [rebuildBackends, GoMap.lookupModify]
  · rename_i absent
    have missing : m.backends.lookup id = none := AList.lookup_eq_none.mpr absent
    split
    · subst k
      rw [missing, Option.map_none]
    · rfl

theorem samePositions {m next : Manager F} (before : Sound m) (after : Sound next)
    (same : ∀ k, next.backends.lookup k = m.backends.lookup k) :
    next.ring.map Vnode.pos = m.ring.map Vnode.pos := by
  have entries := GoMap.entriesPerm same
  have vnodes : next.ring.Perm m.ring :=
    after.vnodes.trans (((entries.map _).flatMap_right _).trans before.vnodes.symm)
  refine (vnodes.map _).eq_of_pairwise (fun _ _ _ _ => UInt32.le_antisymm) ?_ ?_
  · exact List.pairwise_map.mpr after.sorted
  · exact List.pairwise_map.mpr before.sorted

/-! ### One lemma per operation -/

theorem addBackendSound (rt : Runtime) {m : Manager F} (sound : Sound m) (b : Backend) :
    Sound (m.addBackend rt b) := by
  apply rebuildSound
  exact keyedInsert sound.keyed _

theorem removeBackendSound (rt : Runtime) {m : Manager F} (sound : Sound m) (id : UInt32) :
    Sound (m.removeBackend rt id) := rebuildSound rt (keyedErase sound.keyed id)

theorem setFieldSound (rt : Runtime) {m : Manager F} (sound : Sound m) (id : UInt32)
    (write : Backend → Backend) (sameId : ∀ b, (write b).id = b.id) :
    Sound (m.setField rt id write) := by
  unfold Manager.setField
  split
  · exact rebuildSound rt (keyedModify sound.keyed id write sameId)
  · exact sound

theorem setVnodeCountSound (rt : Runtime) {m : Manager F} (sound : Sound m) (id : UInt32)
    (count : Int) : Sound (m.setVnodeCount rt id count) :=
  setFieldSound rt sound id _ fun _ => rfl

theorem setDrainingAllSound (rt : Runtime) {m : Manager F} (sound : Sound m) (draining : Bool) :
    Sound (m.setDrainingAll rt draining).1 :=
  rebuildSound rt (keyedMapValues sound.keyed _ fun _ _ => rfl)

theorem releaseConnSound {m : Manager F} (sound : Sound m) (id : UInt32) :
    Sound (m.releaseConn id) := by
  refine quietWriteSound sound id _ (fun b => ?_) (fun b => ?_) m.reqCount
  · rw [releaseWrites]
  · rw [releaseWrites]
    rfl

variable [GoFloat F]

theorem newManagerSound (cfg : RingConfig F) : Sound (newManager cfg) where
  keyed := by intro k b found; simp [newManager] at found
  vnodes := by simp [newManager, GoMap.values]
  sorted := by simp [newManager]

theorem preMigrateId (samples : List F) (b : Backend) : (preMigrate samples b).id = b.id := by
  unfold preMigrate
  split
  · rfl
  · split <;> rfl

theorem adjustSound (rt : Runtime) {m : Manager F} (sound : Sound m) : Sound (m.adjust rt) := by
  unfold Manager.adjust
  dsimp only
  split
  · split
    · exact sound
    · split
      · split
        · apply rebuildSound
          exact keyedModify (keyedModify sound.keyed _ (Backend.addVnodes (-1)) fun _ => rfl) _
            (Backend.addVnodes 1) fun _ => rfl
        · exact sound
      · exact sound
  · exact sound

theorem proactiveAdjustSound (rt : Runtime) {m : Manager F} (sound : Sound m)
    (loadWindow : GoMap UInt32 (List F)) : Sound (m.proactiveAdjust rt loadWindow) := by
  apply rebuildSound
  exact List.foldlRecOn (motive := KeyedById) _ _ sound.keyed
    fun _ keyed e _ => keyedModify keyed e.1 _ (preMigrateId e.2)

theorem slowStartTickKeeps {P : Manager F → Prop} (rt : Runtime) (errorRate : Option (UInt32 → F))
    (table : ∀ n restoring, P n → P { n with slowStart.restoring := restoring })
    (sets : ∀ n id count, P n → P (n.setVnodeCount rt id count)) {m : Manager F} (start : P m) :
    P (m.slowStartTick rt errorRate) := by
  have one : ∀ (acc : Manager F × List UInt32) id, P acc.1 → P (tickOne rt errorRate acc id).1 := by
    rintro ⟨n, done⟩ id held
    unfold tickOne
    dsimp only
    split
    · exact held
    · split
      · exact table n _ held
      · exact sets _ id _ (table n _ held)
  exact table _ _ (List.foldlRecOn (motive := fun acc => P acc.1) _ _ start
    fun acc held id _ => one acc id held)

theorem slowStartTickSound (rt : Runtime) {m : Manager F} (sound : Sound m)
    (errorRate : Option (UInt32 → F)) : Sound (m.slowStartTick rt errorRate) :=
  slowStartTickKeeps (P := Sound) rt errorRate (fun _ restoring held => tableSound held restoring)
    (fun _ id count held => setVnodeCountSound rt held id count) sound

theorem routeKeeps {P : Manager F → Prop} (rt : Runtime) {m : Manager F} (start : P m)
    (counts : ∀ id, P { m with
      backends := GoMap.modify m.backends id Backend.countRequest, reqCount := m.reqCount + 1 })
    (adjusts : ∀ n, P n → P (n.adjust rt)) {key : UInt32} {out : Manager F × Except RouteError UInt32}
    (routed : m.route rt key = .ok out) : P out.1 := by
  unfold Manager.route at routed
  split at routed
  · cases routed
    exact start
  · simp only [bind, Except.bind] at routed
    split at routed <;> try contradiction
    split at routed <;> try contradiction
    split at routed
    · cases routed
      exact start
    · split at routed <;> try contradiction
      cases routed
      dsimp only
      split
      · exact adjusts _ (counts _)
      · exact counts _

theorem routeSound (rt : Runtime) {m : Manager F} (sound : Sound m) {key : UInt32}
    {out : Manager F × Except RouteError UInt32} (routed : m.route rt key = .ok out) :
    Sound out.1 :=
  routeKeeps (P := Sound) rt sound
    (fun id => quietWriteSound sound id Backend.countRequest (fun _ => rfl) (fun _ => rfl) (m.reqCount + 1))
    (fun _ held => adjustSound rt held) routed

theorem applySound (rt : Runtime) {m next : Manager F} (sound : Sound m) {op : Op F}
    (taken : m.apply rt op = .ok next) : Sound next := by
  cases op with
  | addBackend b => cases taken; exact addBackendSound rt sound b
  | removeBackend id => cases taken; exact removeBackendSound rt sound id
  | setHealth id healthy => cases taken; exact setFieldSound rt sound id _ fun _ => rfl
  | setDraining id draining => cases taken; exact setFieldSound rt sound id _ fun _ => rfl
  | setDrainingAll draining => cases taken; exact setDrainingAllSound rt sound draining
  | setVnodeCount id count => cases taken; exact setVnodeCountSound rt sound id count
  | releaseConn id => cases taken; exact releaseConnSound sound id
  | route key =>
    simp only [Manager.apply, bind, Except.bind] at taken
    split at taken <;> try contradiction
    rename_i routed
    cases taken
    exact routeSound rt sound routed
  | proactiveAdjust loadWindow => cases taken; exact proactiveAdjustSound rt sound loadWindow
  | beginSlowStart id =>
    cases taken
    unfold Manager.beginSlowStart
    split
    · exact sound
    · exact tableSound sound _
  | cancelSlowStart id => cases taken; exact tableSound sound _
  | slowStartTick errorRate => cases taken; exact slowStartTickSound rt sound errorRate

theorem runSound {cfg : RingConfig F} {ops m} (run : StepRun.Run Step (newManager cfg) ops m) :
    Sound m := by
  have preserved : ∀ (s : Manager F) e t, Sound s → Step s e t → Sound t :=
    fun _ e _ held taken => applySound e.1 held taken
  exact StepRun.runInvariant preserved run (newManagerSound cfg)

end OmegaLb.RingInvariant
