import OmegaLb.MaglevOrder
import OmegaLb.RingInvariant

/-! The Maglev table beside the sorted ring. rebuild skips what is not eligible,
RebuildMaglevTable only what is not healthy: the two agree on the owners only while
the healthy backends are the eligible ones and each has a slot's worth of weight. -/
namespace OmegaLb.MaglevRing
open RingManager RingInvariant
open Maglev MaglevShares MaglevFill MaglevOrder
open MaglevTermination (dealt quotasOf writesOf dealtPos dealtMono dealtSplit startDealt startDealtTo
  startShort)
open Apportion (leftover)
open StepRun (Run)
open Config (RingConfig load)

/-! ### Whose ids a table holds -/

theorem roundPlaces {f g : Fill} {ps ps' : List PermState} (round : Round f ps g ps')
    {p : PermState} (nonzero : p.id ≠ 0) (member : p ∈ ps) (owed : 0 < p.quota) :
    ∃ slot : Fin maglevM, g.table[slot] = p.id := by
  induction round with
  | nil f => simp at member
  | idle spent rest ih =>
    rcases List.mem_cons.mp member with rfl | inside
    · omega
    · exact ih inside
  | @place f r ps slot q g ps' _ pick rest ih =>
    rcases List.mem_cons.mp member with rfl | inside
    · obtain ⟨next, rfl⟩ := pickState pick
      have written : (f.write slot p.id).table[slot] = p.id := by rw [writeGet, if_pos rfl]
      have kept := roundKeeps rest (by rw [written]; exact nonzero)
      exact ⟨slot, kept.trans written⟩
    · exact ih inside

def nonZero (id : UInt32) : Bool := decide (id ≠ 0)

def liveQuotas (backends : List UInt32) (vnodeCounts : UInt32 → Int) : List Int :=
  quotasOf nonZero (startPerms backends vnodeCounts)

/-- A positive share. Id 0 is the mark of an empty slot: it shows when the other
shares leave one in the round that ends the build. -/
def HasShare (backends : List UInt32) (vnodeCounts : UInt32 → Int) (id : UInt32) : Prop :=
  if id = 0 then
    ∃ rounds, maglevM ≤ dealt (quotas backends vnodeCounts) rounds ∧
      dealt (liveQuotas backends vnodeCounts) rounds < maglevM
  else ∃ quota, (id, quota) ∈ backends.zip (quotas backends vnodeCounts) ∧ 0 < quota

section Build
variable {backends : List UInt32} {vnodeCounts : UInt32 → Int}

theorem memStart {id : UInt32} {quota : Int} : permState id quota ∈ startPerms backends vnodeCounts ↔
    (id, quota) ∈ backends.zip (quotas backends vnodeCounts) := by
  rw [startPermsZip, List.mem_map]
  constructor
  · rintro ⟨⟨x, other⟩, inside, same⟩
    cases congrArg PermState.id same
    cases congrArg PermState.quota same
    exact inside
  · exact fun inside => ⟨_, inside, rfl⟩

theorem startShape {p : PermState} (member : p ∈ startPerms backends vnodeCounts) :
    p = permState p.id p.quota := by
  rw [startPermsZip] at member
  obtain ⟨_, _, rfl⟩ := List.mem_map.mp member
  rfl

theorem zeroShown (nonempty : backends ≠ []) {table : MaglevTable}
    (returned : Returns backends vnodeCounts table) :
    (∃ slot : Fin maglevM, table[slot] = 0) ↔ HasShare backends vnodeCounts 0 := by
  obtain ⟨es, t, run, full, rfl⟩ := (returnsExact nonempty table).mp returned
  have filled := startDealt run
  have counted := startDealtTo nonZero run
  have live : (live t.fill).length = writesOf nonZero t.fill := List.countP_eq_length_filter.symm
  rw [startQuotas] at filled
  rw [emptyExact (runBalanced run).accounted, HasShare, if_pos rfl, live, counted]
  constructor
  · exact fun short => ⟨es.length, by omega, short⟩
  · rintro ⟨rounds, enough, short⟩
    have le : es.length ≤ rounds := by
      by_contra early
      have unfinished := startShort run (show rounds < es.length by omega)
      rw [startQuotas] at unfinished
      omega
    exact Nat.lt_of_le_of_lt (dealtMono _ le) short

theorem ownerShown (nonempty : backends ≠ []) {table : MaglevTable}
    (returned : Returns backends vnodeCounts table) {id : UInt32} (nonzero : id ≠ 0) :
    (∃ slot : Fin maglevM, table[slot] = id) ↔ HasShare backends vnodeCounts id := by
  obtain ⟨es, t, run, full, rfl⟩ := (returnsExact nonempty table).mp returned
  have balanced := runBalanced run
  rw [HasShare, if_neg nonzero]
  constructor
  · rintro ⟨slot, rfl⟩
    obtain ⟨p, member, owed, sameId⟩ := balanced.writers _ (slotLive balanced.accounted nonzero)
    dsimp only at sameId
    rw [← sameId]
    exact ⟨p.quota, memStart.mp (startShape member ▸ member), owed⟩
  · rintro ⟨quota, inside, owed⟩
    cases run with
    | nil => exact absurd full (by simp [start, emptyFill])
    | cons head tail =>
      obtain ⟨slot, placed⟩ := roundPlaces head.2 nonzero (memStart.mpr inside) owed
      have kept := runKeeps tail (by rw [placed]; exact nonzero)
      exact ⟨slot, kept.trans placed⟩

theorem tableIds (nonempty : backends ≠ []) {table : MaglevTable}
    (returned : Returns backends vnodeCounts table) (id : UInt32) :
    (∃ slot : Fin maglevM, table[slot] = id) ↔ HasShare backends vnodeCounts id := by
  by_cases zero : id = 0
  · exact zero ▸ zeroShown nonempty returned
  · exact ownerShown nonempty returned zero

theorem zeroDealt {rounds : Nat} :
    0 < dealt (quotasOf (fun id => !nonZero id) (startPerms backends vnodeCounts)) rounds ↔
      0 < rounds ∧ ∃ quota, (0, quota) ∈ backends.zip (quotas backends vnodeCounts) ∧ 0 < quota := by
  rw [dealtPos, quotasOf]
  constructor
  · rintro ⟨some_, q, member, owed⟩
    obtain ⟨p, inside, rfl⟩ := List.mem_map.mp member
    obtain ⟨start, zero⟩ := List.mem_filter.mp inside
    have mark : p.id = 0 := by simpa [nonZero] using zero
    exact ⟨some_, p.quota, mark ▸ memStart.mp (startShape start ▸ start), owed⟩
  · rintro ⟨some_, quota, member, owed⟩
    refine ⟨some_, quota, List.mem_map.mpr ⟨permState 0 quota, ?_, rfl⟩, owed⟩
    exact List.mem_filter.mpr ⟨memStart.mpr member, rfl⟩

theorem hasShareFitting (fitting : Fitting backends vnodeCounts) (id : UInt32) :
    HasShare backends vnodeCounts id ↔
      ∃ quota, (id, quota) ∈ backends.zip (quotas backends vnodeCounts) ∧ 0 < quota := by
  unfold HasShare
  split
  · rename_i zero
    subst zero
    have split_ := dealtSplit nonZero (startPerms backends vnodeCounts)
    simp only [startQuotas] at split_
    constructor
    · rintro ⟨rounds, enough, short⟩
      have parts := split_ rounds
      unfold liveQuotas at short
      have some_ : 0 < dealt (quotasOf (fun id => !nonZero id)
          (startPerms backends vnodeCounts)) rounds := by omega
      exact (zeroDealt.mp some_).2
    · intro share
      have parts := split_ maglevM
      have whole := MaglevTermination.dealtFitting fitting
      have some_ := zeroDealt.mpr ⟨show 0 < maglevM by decide, share⟩
      refine ⟨maglevM, whole.ge, ?_⟩
      unfold liveQuotas
      omega
  · rfl

end Build

/-! ### The two structures of one manager -/

variable {F : Type}

def Agree (m : Manager F) : Prop :=
  ∀ rt table, (∃ fuel, rebuildMaglevTable fuel rt m = some table) →
    ∀ id, (∃ slot : Fin maglevM, table[slot] = id) ↔ Owner m id

def SharesMatch (rt : Runtime) (m : Manager F) : Prop :=
  ∀ id, HasShare (maglevBackends rt m) (maglevCounts m) id ↔ Owner m id

theorem maglevBackendsPerm (rt : Runtime) (m : Manager F) :
    (maglevBackends .plain m).Perm (maglevBackends rt m) :=
  ((rt.keyOrderPerm m.backends.keys).filter _).symm

theorem memMaglevBackends {rt : Runtime} {m : Manager F} {id : UInt32} :
    id ∈ maglevBackends rt m ↔ ∃ b, m.backends.lookup id = some b ∧ b.health = true := by
  unfold maglevBackends
  rw [List.mem_filter, (rt.keyOrderPerm _).mem_iff]
  constructor
  · rintro ⟨_, healthy⟩
    exact (Option.any_eq_true _ _).mp healthy
  · rintro ⟨b, found, healthy⟩
    refine ⟨AList.mem_keys.mp (AList.lookup_isSome.mp (by simp [found])), ?_⟩
    simp [found, healthy]

theorem maglevBackendsNodup (rt : Runtime) (m : Manager F) : (maglevBackends rt m).Nodup :=
  (((rt.keyOrderPerm _).nodup_iff).mpr m.backends.nodupKeys).filter _

theorem ownerHealthy {m : Manager F} (sound : Sound m) {id : UInt32} (owner : Owner m id)
    (rt : Runtime) : id ∈ maglevBackends rt m := by
  obtain ⟨b, found, eligible, _⟩ := (ownerExact sound id).mp owner
  refine memMaglevBackends.mpr ⟨b, found, ?_⟩
  unfold Backend.eligible at eligible
  exact (Bool.and_eq_true_iff.mp eligible).1

theorem zipAt {ids : List UInt32} {quotas : List Int} {id : UInt32} {quota : Int} :
    (id, quota) ∈ ids.zip quotas ↔
      ∃ i, ∃ inside : i < ids.length, ∃ bound : i < quotas.length, ids[i] = id ∧ quotas[i] = quota := by
  constructor
  · intro member
    obtain ⟨i, within, at_⟩ := List.getElem_of_mem member
    rw [List.length_zip] at within
    rw [List.getElem_zip] at at_
    exact ⟨i, by omega, by omega, congrArg Prod.fst at_, congrArg Prod.snd at_⟩
  · rintro ⟨i, inside, bound, rfl, rfl⟩
    have within : i < (ids.zip quotas).length := by
      rw [List.length_zip]
      omega
    have at_ := List.getElem_zip (h := within)
    exact at_ ▸ List.getElem_mem within

theorem agreeShares {m : Manager F} (sound : Sound m) (someone : ∃ id, Owner m id) :
    Agree m ↔ ∀ rt, (∃ table, Returns (maglevBackends rt m) (maglevCounts m) table) →
      SharesMatch rt m := by
  have nonempty : ∀ rt, maglevBackends rt m ≠ [] := fun rt => by
    obtain ⟨id, owner⟩ := someone
    exact List.ne_nil_of_mem (ownerHealthy sound owner rt)
  constructor
  · rintro agree rt ⟨table, returned⟩ id
    rw [← tableIds (nonempty rt) returned id]
    exact agree rt table returned id
  · intro shares rt table returned id
    rw [tableIds (nonempty rt) returned id]
    exact shares rt ⟨table, returned⟩ id

/-! ### Shares in proportion -/

def healthyWeight (m : Manager F) : Int := ((maglevBackends .plain m).map (maglevCounts m)).sum

def healthyLeftover (m : Manager F) : Nat :=
  leftover maglevM (natWeights (maglevBackends .plain m) (maglevCounts m))

structure Proportionate (m : Manager F) : Prop where
  owners : ∀ id b, m.backends.lookup id = some b → b.eligible = true → 1 ≤ b.vnodeCount →
    healthyWeight m ≤ b.vnodeCount * 65537
  others : ∀ id b, m.backends.lookup id = some b → b.health = true →
    ¬ (b.eligible = true ∧ 1 ≤ b.vnodeCount) →
    b.vnodeCount * 65537 < healthyWeight m ∧ healthyLeftover m = 0

def withKeys (keyOrder : List UInt32 → List UInt32) (perm : ∀ ks, (keyOrder ks).Perm ks) : Runtime :=
  { Runtime.plain with keyOrder := keyOrder, keyOrderPerm := perm }

def keyFirst (id : UInt32) : Runtime :=
  withKeys (fun ks => if id ∈ ks then id :: ks.erase id else ks) fun ks => by
    split
    · exact (List.perm_cons_erase ‹_›).symm
    · exact .rfl

def keyLast (id : UInt32) : Runtime :=
  withKeys (fun ks => if id ∈ ks then ks.erase id ++ [id] else ks) fun ks => by
    split
    · exact (List.perm_append_singleton id _).trans (List.perm_cons_erase ‹_›).symm
    · exact .rfl

theorem firstBackends {m : Manager F} {id : UInt32} (member : id ∈ maglevBackends .plain m) :
    ∃ rest, maglevBackends (keyFirst id) m = id :: rest := by
  obtain ⟨inside, healthy⟩ := List.mem_filter.mp member
  have key : id ∈ m.backends.keys := inside
  refine ⟨(m.backends.keys.erase id).filter fun x => (m.backends.lookup x).any Backend.health, ?_⟩
  simp only [maglevBackends, keyFirst, withKeys, if_pos key]
  exact List.filter_cons_of_pos healthy

theorem lastBackends {m : Manager F} {id : UInt32} (member : id ∈ maglevBackends .plain m) :
    ∃ rest, maglevBackends (keyLast id) m = rest ++ [id] := by
  obtain ⟨inside, healthy⟩ := List.mem_filter.mp member
  have key : id ∈ m.backends.keys := inside
  refine ⟨(m.backends.keys.erase id).filter fun x => (m.backends.lookup x).any Backend.health, ?_⟩
  simp only [maglevBackends, keyLast, withKeys, if_pos key, List.filter_append]
  exact congrArg _ (List.filter_cons_of_pos healthy)

/-- A manager whose healthy backends have counts that fit and no skip of 65536. -/
structure HealthyBounded (m : Manager F) : Prop where
  counts : ∀ id ∈ maglevBackends .plain m, 0 ≤ maglevCounts m id
  fits : healthyWeight m * 65537 < 2 ^ 63
  skips : ∀ id ∈ maglevBackends .plain m, maglevHash id 0xBEEF % 65536 ≠ 65535

theorem healthyFitting {m : Manager F} (sound : Sound m) (someone : ∃ id, Owner m id)
    (bounded : HealthyBounded m) (rt : Runtime) : Fitting (maglevBackends rt m) (maglevCounts m) := by
  obtain ⟨id, owner⟩ := someone
  exact fittingPerm (maglevBackendsPerm rt m) ⟨List.ne_nil_of_mem (ownerHealthy sound owner _),
    maglevBackendsNodup _ m, bounded.counts, bounded.fits⟩

theorem healthyReturns {m : Manager F} (sound : Sound m) (someone : ∃ id, Owner m id)
    (bounded : HealthyBounded m) (rt : Runtime) :
    ∃ table, Returns (maglevBackends rt m) (maglevCounts m) table := by
  have fitting := healthyFitting sound someone bounded rt
  refine MaglevTermination.dealableReturns fitting.nonempty
    (MaglevTermination.dealableFitting fitting fun id member => ?_)
  exact bounded.skips id ((maglevBackendsPerm rt m).mem_iff.mpr member)

theorem countsAt {m : Manager F} {id : UInt32} {b : Backend} (found : m.backends.lookup id = some b)
    (healthy : b.health = true) : maglevCounts m id = b.vnodeCount := by
  simp [maglevCounts, found, healthy]

theorem healthyWeightPos {m : Manager F} (sound : Sound m) (someone : ∃ id, Owner m id)
    (bounded : HealthyBounded m) : 0 < healthyWeight m := by
  obtain ⟨o, owner⟩ := someone
  obtain ⟨c, foundC, eligible, count⟩ := (ownerExact sound o).mp owner
  have member := ownerHealthy sound owner .plain
  have healthyC := (Bool.and_eq_true_iff.mp eligible).1
  have le : maglevCounts m o ≤ healthyWeight m :=
    List.single_le_sum (fun w inside => by
      obtain ⟨x, memberX, rfl⟩ := List.mem_map.mp inside
      exact bounded.counts x memberX) _ (List.mem_map.mpr ⟨o, member, rfl⟩)
  rw [countsAt foundC healthyC] at le
  omega

theorem quotaPositive {m : Manager F} (sound : Sound m) (someone : ∃ id, Owner m id)
    (bounded : HealthyBounded m) (rt : Runtime) {id : UInt32} {b : Backend}
    (found : m.backends.lookup id = some b) (healthy : b.health = true) (i : Nat)
    (inside : i < (maglevBackends rt m).length)
    (bound : i < (quotas (maglevBackends rt m) (maglevCounts m)).length)
    (at_ : (maglevBackends rt m)[i] = id) :
    0 < (quotas (maglevBackends rt m) (maglevCounts m))[i] ↔
      healthyWeight m ≤ b.vnodeCount * 65537 ∨ i < healthyLeftover m := by
  have slots : maglevM = 65537 := rfl
  have perm := maglevBackendsPerm rt m
  have fitting := healthyFitting sound someone bounded rt
  have sum := natWeightsSum (healthyFitting sound someone bounded .plain)
  have positive := natWeightsPos (healthyFitting sound someone bounded .plain)
  have weight := healthyWeightPos sound someone bounded
  have own : natWeight (maglevBackends .plain m) (maglevCounts m) id = b.vnodeCount.toNat := by
    rw [natWeight, if_neg (show ((maglevBackends .plain m).map (maglevCounts m)).sum ≠ 0 from
      weight.ne'), countsAt found healthy]
  have low : 0 ≤ b.vnodeCount := by
    rw [← countsAt found healthy]
    exact bounded.counts id (perm.mem_iff.mpr (at_ ▸ List.getElem_mem inside))
  rw [if_neg (show ((maglevBackends .plain m).map (maglevCounts m)).sum ≠ 0 from weight.ne')] at sum
  have total : ((natWeights (maglevBackends .plain m) (maglevCounts m)).sum : Int) = healthyWeight m := sum
  rw [MaglevProportion.shareAt fitting i inside bound, at_, natWeightPerm perm,
    ← (natWeightsPerm perm).sum_eq, Apportion.leftoverPerm maglevM (natWeightsPerm perm), own]
  have early : leftover maglevM (natWeights (maglevBackends .plain m) (maglevCounts m)) =
      healthyLeftover m := rfl
  rw [early]
  have product : ((b.vnodeCount.toNat * maglevM : Nat) : Int) = b.vnodeCount * 65537 := by
    rw [slots]
    omega
  have whole := @Nat.div_pos_iff (b.vnodeCount.toNat * maglevM)
    (natWeights (maglevBackends .plain m) (maglevCounts m)).sum
  generalize b.vnodeCount.toNat * maglevM = n at *
  generalize (natWeights (maglevBackends .plain m) (maglevCounts m)).sum = w at *
  generalize n / w = q at *
  split <;> omega

theorem shareHeld {m : Manager F} (sound : Sound m) (someone : ∃ id, Owner m id)
    (bounded : HealthyBounded m) (rt : Runtime) {id : UInt32} {b : Backend}
    (found : m.backends.lookup id = some b) (healthy : b.health = true) (i : Nat)
    (inside : i < (maglevBackends rt m).length) (at_ : (maglevBackends rt m)[i] = id) :
    HasShare (maglevBackends rt m) (maglevCounts m) id ↔
      healthyWeight m ≤ b.vnodeCount * 65537 ∨ i < healthyLeftover m := by
  have bound : i < (quotas (maglevBackends rt m) (maglevCounts m)).length := by rwa [quotasLength]
  rw [← quotaPositive sound someone bounded rt found healthy i inside bound at_,
    hasShareFitting (healthyFitting sound someone bounded rt)]
  constructor
  · rintro ⟨quota, member, positive⟩
    obtain ⟨j, insideJ, boundJ, atJ, rfl⟩ := zipAt.mp member
    have same := ((maglevBackendsNodup rt m).getElem_inj_iff).mp (at_.trans atJ.symm)
    subst same
    exact positive
  · exact fun positive => ⟨_, zipAt.mpr ⟨i, inside, bound, at_, rfl⟩, positive⟩

/-! ### When they agree -/

theorem proportionateOf {m : Manager F} (sound : Sound m) (someone : ∃ id, Owner m id)
    (bounded : HealthyBounded m) (shares : ∀ rt, SharesMatch rt m) : Proportionate m where
  owners := by
    intro id b found eligible count
    have owner := (ownerExact sound id).mpr ⟨b, found, eligible, count⟩
    have healthy := (Bool.and_eq_true_iff.mp eligible).1
    -- last in the order it gets nothing of the remainder
    obtain ⟨rest, shape⟩ := lastBackends (ownerHealthy sound owner .plain)
    have length : (maglevBackends (keyLast id) m).length = rest.length + 1 := by simp [shape]
    have inside : rest.length < (maglevBackends (keyLast id) m).length := by omega
    have at_ : (maglevBackends (keyLast id) m)[rest.length] = id := by simp [shape]
    have held := (shares (keyLast id) id).mpr owner
    have few := Apportion.leftoverLt maglevM (natWeightsPos (healthyFitting sound someone bounded .plain))
    have same : (natWeights (maglevBackends .plain m) (maglevCounts m)).length = rest.length + 1 := by
      rw [← length, ← (maglevBackendsPerm (keyLast id) m).length_eq]
      simp [natWeights]
    rcases (shareHeld sound someone bounded _ found healthy _ inside at_).mp held with enough | early
    · exact enough
    · unfold healthyLeftover at early
      omega
  others := by
    intro id b found healthy excluded
    have notOwner : ¬ Owner m id := fun owner => by
      obtain ⟨c, foundC, eligible, count⟩ := (ownerExact sound id).mp owner
      cases Option.some.inj (found.symm.trans foundC)
      exact excluded ⟨eligible, count⟩
    -- first in the order it gets a slot of any remainder
    obtain ⟨rest, shape⟩ := firstBackends (memMaglevBackends.mpr ⟨b, found, healthy⟩)
    have inside : 0 < (maglevBackends (keyFirst id) m).length := by simp [shape]
    have at_ : (maglevBackends (keyFirst id) m)[0] = id := by simp [shape]
    have none_ := mt (shares (keyFirst id) id).mp notOwner
    rw [shareHeld sound someone bounded _ found healthy _ inside at_] at none_
    omega

theorem unhealthyShare {m : Manager F} (sound : Sound m) (someone : ∃ id, Owner m id)
    (bounded : HealthyBounded m) (rt : Runtime) {id : UInt32} (absent : id ∉ maglevBackends rt m) :
    ¬ HasShare (maglevBackends rt m) (maglevCounts m) id := by
  rw [hasShareFitting (healthyFitting sound someone bounded rt)]
  rintro ⟨quota, member, _⟩
  exact absent (List.of_mem_zip member).1

theorem sharesOf {m : Manager F} (sound : Sound m) (someone : ∃ id, Owner m id)
    (bounded : HealthyBounded m) (proportionate : Proportionate m) (rt : Runtime) :
    SharesMatch rt m := by
  intro id
  by_cases member : id ∈ maglevBackends rt m
  · obtain ⟨b, found, healthy⟩ := memMaglevBackends.mp member
    obtain ⟨i, inside, at_⟩ := List.getElem_of_mem member
    rw [shareHeld sound someone bounded rt found healthy i inside at_, ownerExact sound id]
    by_cases owner : b.eligible = true ∧ 1 ≤ b.vnodeCount
    · have enough := proportionate.owners id b found owner.1 owner.2
      exact ⟨fun _ => ⟨b, found, owner⟩, fun _ => .inl enough⟩
    · obtain ⟨small, none_⟩ := proportionate.others id b found healthy owner
      constructor
      · intro positive
        omega
      · rintro ⟨c, foundC, ownerC⟩
        cases Option.some.inj (found.symm.trans foundC)
        exact absurd ownerC owner
  · have idle := unhealthyShare sound someone bounded rt member
    exact ⟨fun share => absurd share idle, fun owner => absurd (ownerHealthy sound owner rt) member⟩

theorem agreeProportionate {m : Manager F} (sound : Sound m) (someone : ∃ id, Owner m id)
    (bounded : HealthyBounded m) : Agree m ↔ Proportionate m := by
  rw [agreeShares sound someone]
  constructor
  · exact fun shares => proportionateOf sound someone bounded fun rt =>
      shares rt (healthyReturns sound someone bounded rt)
  · exact fun proportionate rt _ => sharesOf sound someone bounded proportionate rt

variable [GoFloat F]

theorem agreeExact {cfg : RingConfig F} {ops : List (Runtime × Op F)} {m : Manager F}
    (run : Run Step (newManager cfg) ops m) (someone : ∃ id, Owner m id) :
    (Agree m ↔ ∀ rt, (∃ table, Returns (maglevBackends rt m) (maglevCounts m) table) →
      SharesMatch rt m) ∧ (HealthyBounded m → (Agree m ↔ Proportionate m)) :=
  ⟨agreeShares (runSound run) someone, agreeProportionate (runSound run) someone⟩

/-! ### Two backends -/

def addPair : List (Runtime × Op ℚ) :=
  [(.plain, .addBackend { id := 1, health := true }), (.plain, .addBackend { id := 2, health := true })]

def pair : Manager ℚ :=
  ((newManager (load {})).addBackend .plain { id := 1, health := true }).addBackend .plain
    { id := 2, health := true }

def drainedPair : Manager ℚ := (pair.setDraining .plain 2 true).1

theorem pairRun : Run Step (newManager (load {})) addPair pair := .cons rfl (.cons rfl (.nil pair))

theorem drainedPairRun : Run Step (newManager (load {}))
    (addPair ++ [(.plain, .setDraining 2 true)]) drainedPair := StepRun.runSnoc pairRun rfl

theorem pairBounded {m : Manager ℚ} (backends : maglevBackends .plain m = [2, 1])
    (two : maglevCounts m 2 = 150) (one : maglevCounts m 1 = 150) : HealthyBounded m := by
  have weight : healthyWeight m = 300 := by simp [healthyWeight, backends, two, one]
  have swap : ([2, 1] : List UInt32).Perm [1, 2] := List.Perm.swap 1 2 []
  refine ⟨fun id member => ?_, by rw [weight]; decide, fun id member => ?_⟩
  · rw [backends] at member
    rcases List.mem_cons.mp member with rfl | last
    · omega
    · rw [List.mem_singleton.mp last]
      omega
  · rw [backends] at member
    exact MaglevTermination.twoSkips (swap.mem_iff.mp member)

theorem pairAgrees : Agree pair := by
  have someone : ∃ id, Owner pair id := ⟨1, (ownerExact (runSound pairRun) 1).mpr
    ⟨{ id := 1, health := true, vnodeCount := 150 }, by decide +kernel⟩⟩
  have bounded : HealthyBounded pair :=
    pairBounded (by decide +kernel) (by decide +kernel) (by decide +kernel)
  refine ((agreeExact pairRun someone).2 bounded).mpr ⟨?_, ?_⟩
  · intro id b found _ _
    have all : ∀ b ∈ GoMap.values pair.backends, healthyWeight pair ≤ b.vnodeCount * 65537 := by
      decide +kernel
    exact all b (GoMap.memValues.mpr ⟨id, found⟩)
  · intro id b found _ excluded
    have all : ∀ b ∈ GoMap.values pair.backends, b.eligible = true ∧ 1 ≤ b.vnodeCount := by
      decide +kernel
    exact absurd (all b (GoMap.memValues.mpr ⟨id, found⟩)) excluded

theorem drainedBackendKeepsSlots :
    Run Step (newManager (load {})) (addPair ++ [(.plain, .setDraining 2 true)]) drainedPair ∧
      Owner drainedPair 1 ∧ ¬ Owner drainedPair 2 ∧
      ∃ table fuel, rebuildMaglevTable fuel .plain drainedPair = some table ∧
        ∃ slot : Fin maglevM, table[slot] = 2 := by
  have sound := runSound drainedPairRun
  have owner : Owner drainedPair 1 := (ownerExact sound 1).mpr
    ⟨{ id := 1, health := true, vnodeCount := 150 }, by decide +kernel⟩
  have drained : drainedPair.backends.lookup 2 =
      some { id := 2, health := true, draining := true, vnodeCount := 150 } := by decide +kernel
  have bounded : HealthyBounded drainedPair :=
    pairBounded (by decide +kernel) (by decide +kernel) (by decide +kernel)
  obtain ⟨table, fuel, built⟩ := healthyReturns sound ⟨1, owner⟩ bounded .plain
  refine ⟨drainedPairRun, owner, ?_, table, fuel, built, ?_⟩
  · intro other
    obtain ⟨b, found, eligible, _⟩ := (ownerExact sound 2).mp other
    cases Option.some.inj (drained.symm.trans found)
    contradiction
  · have fitting := healthyFitting sound ⟨1, owner⟩ bounded .plain
    refine (tableIds fitting.nonempty ⟨fuel, built⟩ 2).mpr ((hasShareFitting fitting 2).mpr ?_)
    exact ⟨32769, by decide +kernel, by decide⟩

end OmegaLb.MaglevRing
