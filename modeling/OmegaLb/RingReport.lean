import OmegaLb.AdminServer
import OmegaLb.VnodeFloor
import Mathlib.Algebra.BigOperators.Ring.Finset
import Mathlib.Tactic.Ring

/-! What /admin/ring says of the ring: the counts and shares it works out from the backends
are those of the positions that the manager has placed. -/
namespace OmegaLb.RingReport
open Admin RingManager RingInvariant VnodeFloor
open StepRun (Run Guarded)
open Config (RingConfig load)

variable {F : Type}

def placed (m : Manager F) (id : UInt32) : Nat := m.ring.countP fun vn => vn.backend = id

def inRing (b : Backend) : Int := if b.eligible then b.vnodeCount else 0

section Report
variable [GoFloat F]

/-- The report of a manager that nothing writes between the calls. -/
def reportOf (rt : Runtime) (m : Manager F) : RingResponse F :=
  ringReport ((m.backendIds rt).filterMap m.backendInfo)

structure Reported (m : Manager F) (b : Backend) (info : RingBackendInfo F) : Prop where
  same : ringInfo b info.weightPct = info
  waiting : b.eligible = false → placed m b.id = 0 ∧ info.weightPct = GoFloat.lit 0
  serving : b.eligible = true → info.vnodes = placed m b.id ∧ 0 < placed m b.id ∧
    info.weightPct =
      GoFloat.ofInt (placed m b.id) / GoFloat.ofInt m.ring.length * GoFloat.lit 100.0

/-! ### The totals -/

theorem addsEligible (infos : List Backend) (start : Int) :
    infos.foldl (fun total b => if b.health && !b.draining then total + b.vnodeCount else total) start =
      start + (infos.map inRing).sum := by
  induction infos generalizing start with
  | nil => simp
  | cons b infos ih =>
    rw [List.foldl_cons, ih, List.map_cons, List.sum_cons]
    cases eligible : b.health && !b.draining <;> simp [inRing, Backend.eligible, eligible]
    omega

theorem reportTotal (infos : List Backend) :
    (ringReport (F := F) infos).totalVnodes = (infos.map inRing).sum := by
  have added := addsEligible infos 0
  rw [Int.zero_add] at added
  exact added

theorem vnodesLength {b : Backend} (counted : 1 ≤ b.vnodeCount) : (b.vnodes.length : Int) = inRing b := by
  unfold Backend.vnodes inRing
  cases b.eligible <;> simp
  omega

theorem vnodesPlaced (b : Backend) (id : UInt32) :
    (b.vnodes.countP fun vn => vn.backend = id) = if b.id = id then b.vnodes.length else 0 := by
  split
  · rename_i same
    apply List.countP_eq_length.mpr
    intro vn own
    simp [(memVnodes own).1, same]
  · rename_i other
    apply List.countP_eq_zero.mpr
    intro vn own
    simp [(memVnodes own).1, other]

omit [GoFloat F] in
theorem ringLength {m : Manager F} (sound : Sound m) :
    m.ring.length = ((GoMap.values m.backends).map fun b => b.vnodes.length).sum := by
  rw [sound.vnodes.length_eq, List.length_flatMap]

omit [GoFloat F] in
theorem placedExact {m : Manager F} (sound : Sound m) {id : UInt32} {b : Backend}
    (found : m.backendInfo id = some b) : placed m id = b.vnodes.length := by
  have each : placed m id = ((GoMap.values m.backends).map fun c =>
      if c.id = id then c.vnodes.length else 0).sum := by
    unfold placed
    rw [sound.vnodes.countP_eq, List.countP_flatMap]
    simp only [Function.comp_def, vnodesPlaced]
  rw [each, GoMap.sumValuesAt m.backends _ id, show m.backends.lookup id = some b from found]
  · simp [sound.keyed id b found]
  · intro j c other apart
    rw [sound.keyed j c other, if_neg apart]

omit [GoFloat F] in
theorem listedPerm (rt : Runtime) (m : Manager F) :
    ((m.backendIds rt).filterMap m.backendInfo).Perm (GoMap.values m.backends) := by
  have listed := GoMap.filterMapKeys m.backends (id : Backend → Backend)
  simp only [Option.map_id, id_eq, List.map_id] at listed
  exact ((rt.keyOrderPerm _).filterMap _).trans (.of_eq listed)

theorem totalPlaced (rt : Runtime) {m : Manager F} (sound : Sound m) (floor : Floor m.backends) :
    (reportOf rt m).totalVnodes = m.ring.length := by
  have counted : ∀ b ∈ GoMap.values m.backends, inRing b = (b.vnodes.length : Int) := by
    intro b member
    obtain ⟨id, found⟩ := GoMap.memValues.mp member
    exact (vnodesLength (floor id b found)).symm
  calc (reportOf rt m).totalVnodes
      = (((m.backendIds rt).filterMap m.backendInfo).map inRing).sum := reportTotal _
    _ = ((GoMap.values m.backends).map inRing).sum := ((listedPerm rt m).map inRing).sum_eq
    _ = ((GoMap.values m.backends).map fun b => (b.vnodes.length : Int)).sum := by
        rw [List.map_congr_left counted]
    _ = m.ring.length := by
        rw [ringLength sound]
        rw [Nat.cast_list_sum, List.map_map]
        rfl

/-! ### One backend -/

theorem infoReported (rt : Runtime) {m : Manager F} (sound : Sound m) (floor : Floor m.backends)
    {info : RingBackendInfo F} (listed : info ∈ (reportOf rt m).backends) :
    ∃ b, m.backendInfo info.id = some b ∧ Reported m b info := by
  obtain ⟨b, member, made⟩ := List.mem_map.mp listed
  obtain ⟨id, found⟩ := GoMap.memValues.mp ((listedPerm rt m).mem_iff.mp member)
  have keyed : b.id = id := sound.keyed id b found
  have positions : placed m b.id = b.vnodes.length := by
    rw [keyed]
    exact placedExact sound found
  have total := totalPlaced rt sound floor
  have length := vnodesLength (floor id b found)
  change List.foldl _ 0 _ = _ at total
  rw [total] at made
  subst made
  refine ⟨b, (congrArg m.backendInfo keyed).trans found, ⟨rfl, fun waiting => ?_, fun serving => ?_⟩⟩
  · have none : b.vnodes = [] := by
      unfold Backend.vnodes
      rw [waiting]
      rfl
    refine ⟨by rw [positions, none, List.length_nil], if_pos ?_⟩
    simp only [Backend.eligible, Bool.and_eq_false_iff, Bool.not_eq_false'] at waiting
    rcases waiting with sick | draining
    · simp [sick]
    · simp [draining]
  · have count : b.vnodeCount = placed m b.id := by
      rw [positions, length, inRing, if_pos serving]
    have positive := floor id b found
    have several : (m.ring.length : Int) ≠ 0 := by
      have part : placed m b.id ≤ m.ring.length := List.countP_le_length
      omega
    have kept : ¬ (!b.health || b.draining || (m.ring.length : Int) = 0) = true := by
      simp only [Backend.eligible, Bool.and_eq_true, Bool.not_eq_true'] at serving
      simp only [serving.1, serving.2, decide_eq_false several]
      decide
    refine ⟨count, by omega, ?_⟩
    rw [← count]
    exact if_neg kept

theorem idsListed (rt : Runtime) {m : Manager F} (sound : Sound m) :
    ((reportOf rt m).backends.map RingBackendInfo.id).Perm m.backends.keys := by
  have ids : ∀ e ∈ m.backends.entries, e.2.id = e.1 := fun e inside =>
    sound.keyed e.1 e.2 (Option.mem_def.mp (AList.mem_lookup_iff.mpr inside))
  have keys : (GoMap.values m.backends).map Backend.id = m.backends.keys := by
    simp only [GoMap.values, AList.keys, List.keys, List.map_map]
    exact List.map_congr_left ids
  have made : (reportOf rt m).backends.map RingBackendInfo.id =
      ((m.backendIds rt).filterMap m.backendInfo).map Backend.id := by
    unfold reportOf ringReport
    rw [List.map_map]
    rfl
  rw [made, ← keys]
  exact (listedPerm rt m).map _

end Report

variable [GoRounding F]

/-- In every state reached, the report names each backend once and gives the number of its
positions on the ring and their share. -/
theorem reportExact {cfg : RingConfig F} (positive : 1 ≤ cfg.vnodesPerServer)
    {ops : List (Runtime × Op F)} {m : Manager F}
    (run : Run (Guarded KeepsCount Step) (newManager cfg) ops m) (rt : Runtime) :
    (reportOf rt m).totalVnodes = m.ring.length ∧
    (reportOf rt m).backendCount = m.backends.keys.length ∧
    ((reportOf rt m).backends.map RingBackendInfo.id).Perm m.backends.keys ∧
    ∀ info ∈ (reportOf rt m).backends,
      ∃ b, m.backendInfo info.id = some b ∧ Reported m b info := by
  have preserved : ∀ (s : Manager F) (e : Runtime × Op F) t, Known s ∧ Floor s.backends → KeepsCount s e →
      Step s e t → Known t ∧ Floor t.backends :=
    fun s e t held kept taken =>
      ⟨stepKnown s e t held.1 taken, (stepFloor held.1 held.2 taken).mpr kept⟩
  have empty : Floor (newManager cfg).backends := by
    intro id b found
    simp [newManager] at found
  obtain ⟨⟨sound, _⟩, floor⟩ := StepRun.guardedInvariant preserved run ⟨newManagerKnown positive, empty⟩
  refine ⟨totalPlaced rt sound floor, ?_, idsListed rt sound, fun info => infoReported rt sound floor⟩
  rw [← (idsListed rt sound).length_eq, List.length_map]
  rfl

def draining : List (Runtime × Op ℚ) :=
  [(.plain, .addBackend { id := 1, health := true }), (.plain, .addBackend { id := 2, health := true }),
    (.plain, .setDraining 2 true)]

theorem drainingRun : ∃ m : Manager ℚ, Run (Guarded KeepsCount Step) (newManager (load {})) draining m := by
  refine ⟨_, .cons ⟨?_, rfl⟩ (.cons ⟨?_, rfl⟩ (.cons ⟨trivial, rfl⟩ (.nil _)))⟩
  · intro known
    simp [newManager] at known
  · intro known
    have other := AList.lookup_isSome.mpr known
    rw [addBackendLookups, if_neg (by decide)] at other
    simp [newManager] at other

theorem reportExactDraining : ∃ m : Manager ℚ,
    Run (Guarded KeepsCount Step) (newManager (load {})) draining m ∧
    (reportOf .plain m).totalVnodes = m.ring.length ∧
    ∀ info ∈ (reportOf .plain m).backends, ∃ b, m.backendInfo info.id = some b ∧ Reported m b info := by
  obtain ⟨m, run⟩ := drainingRun
  obtain ⟨total, _, _, each⟩ := reportExact (by decide) run .plain
  exact ⟨m, run, total, each⟩

/-! ### Reports of a manager that changes meanwhile -/

theorem sharesSum (infos : List Backend) (total : ℚ) :
    (infos.map fun b => (inRing b : ℚ) / total * 100).sum = ((infos.map inRing).sum : ℚ) / total * 100 := by
  induction infos with
  | nil => simp
  | cons b infos ih =>
    rw [List.map_cons, List.sum_cons, ih, List.map_cons, List.sum_cons]
    push_cast
    ring

theorem weightShare (b : Backend) (total : Int) :
    (if !b.health || b.draining || total = 0 then GoFloat.lit 0
      else GoFloat.ofInt b.vnodeCount / GoFloat.ofInt total * GoFloat.lit 100.0 : ℚ) =
    (inRing b : ℚ) / total * 100 := by
  have hundred : (GoFloat.lit 100.0 : ℚ) = 100 := by norm_num [GoFloat.lit]
  by_cases none : total = 0
  · simp [none, GoFloat.lit]
  · rw [hundred]
    unfold inRing Backend.eligible
    cases b.health <;> cases b.draining <;> simp [none, GoFloat.lit, GoFloat.ofInt]

/-- Whatever the backends have become from one call to the next, the shares make a whole. -/
theorem weightsWhole (infos : List Backend) :
    ((ringReport (F := ℚ) infos).backends.map RingBackendInfo.weightPct).sum =
      if (ringReport (F := ℚ) infos).totalVnodes = 0 then 0 else 100 := by
  have total := reportTotal (F := ℚ) infos
  have each : (ringReport (F := ℚ) infos).backends.map RingBackendInfo.weightPct =
      infos.map fun b => (inRing b : ℚ) / (ringReport (F := ℚ) infos).totalVnodes * 100 := by
    unfold ringReport
    rw [List.map_map]
    exact List.map_congr_left fun b _ => weightShare b _
  rw [each, sharesSum]
  split
  · rename_i none
    simp [none]
  · rename_i some
    rw [← total]
    have nonzero : ((ringReport (F := ℚ) infos).totalVnodes : ℚ) ≠ 0 := by exact_mod_cast some
    rw [div_self nonzero, one_mul]

end OmegaLb.RingReport
