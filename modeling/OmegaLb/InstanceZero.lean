import OmegaLb.RelayChain
import OmegaLb.MaglevTermination

/-! One instance id from the pick of lb_policy to its statistics, and its slots in the Maglev
table. 0 is the id of the first backend of cluster 0 and, in both, the mark of nothing. -/
namespace OmegaLb.InstanceZero
open KernelMaps LbPolicy RelayChain
open Reconcile (BackendEntry)
open Maglev MaglevShares MaglevTermination
open MaglevFill hiding Picks
open StepRun (Run)

/-! ### The slots of an id -/

def slotsFor (g : Fill) (id : UInt32) : List (Fin maglevM) :=
  (g.writes.filter fun w => decide (w.2 = id)).map Prod.fst

def sharesOf (backends : List UInt32) (vnodeCounts : UInt32 → Int) (id : UInt32) : List Int :=
  quotasOf (fun other => decide (other = id)) (startPerms backends vnodeCounts)

def quotaOf (backends : List UInt32) (vnodeCounts : UInt32 → Int) (id : UInt32) : Nat :=
  ((sharesOf backends vnodeCounts id).map Int.toNat).sum

/-- As many slots as the quota says were taken for `id`, no slot twice, and they all still
hold it. -/
structure GivenQuota (backends : List UInt32) (vnodeCounts : UInt32 → Int) (g : Fill) (id : UInt32) :
    Prop where
  distinct : (slotsFor g id).Nodup
  full : (slotsFor g id).length = quotaOf backends vnodeCounts id
  kept : ∀ slot ∈ slotsFor g id, g.table[slot] = id

/-- By the round that fills the table the share of `id` has been dealt out. -/
def FullyDealt (backends : List UInt32) (vnodeCounts : UInt32 → Int) (id : UInt32) : Prop :=
  ∀ rounds, maglevM ≤ dealt (quotas backends vnodeCounts) rounds →
    dealt (sharesOf backends vnodeCounts id) rounds = quotaOf backends vnodeCounts id

theorem dealtTotal (shares : List Int) (rounds : Nat) :
    dealt shares rounds ≤ (shares.map Int.toNat).sum :=
  List.sum_le_sum fun _ _ => min_le_left _ _

theorem totalSplit (keep : UInt32 → Bool) (ps : List PermState) :
    ((ps.map PermState.quota).map Int.toNat).sum = ((quotasOf keep ps).map Int.toNat).sum +
      ((quotasOf (fun id => !keep id) ps).map Int.toNat).sum := by
  induction ps with
  | nil => rfl
  | cons p ps ih =>
    simp only [quotasOf, List.map_cons, List.sum_cons, List.filter_cons] at *
    cases keep p.id <;> simp only [Bool.not_true, Bool.not_false, if_true, if_false,
      Bool.false_eq_true, List.map_cons, List.sum_cons] <;> omega

variable {backends : List UInt32} {vnodeCounts : UInt32 → Int}

theorem fullyDealtFitting (fitting : Fitting backends vnodeCounts) (id : UInt32) :
    FullyDealt backends vnodeCounts id := by
  intro rounds whole
  have split := dealtSplit (fun other => decide (other = id)) (startPerms backends vnodeCounts) rounds
  have total := totalSplit (fun other => decide (other = id)) (startPerms backends vnodeCounts)
  have sum : ((quotas backends vnodeCounts).map Int.toNat).sum = maglevM := by
    rw [quotasFitting fitting, List.map_map]
    have same : (Apportion.shares maglevM (natWeights backends vnodeCounts)).map
        (Int.toNat ∘ (Nat.cast : Nat → Int)) = Apportion.shares maglevM (natWeights backends vnodeCounts) :=
      (List.map_congr_left fun n _ => Int.toNat_natCast n).trans (List.map_id' _)
    rw [same, Apportion.sharesSum maglevM (natWeightsPos fitting)]
  rw [startQuotas] at split total
  have mine := dealtTotal (sharesOf backends vnodeCounts id) rounds
  have theirs := dealtTotal (quotasOf (fun other => !decide (other = id))
    (startPerms backends vnodeCounts)) rounds
  unfold quotaOf sharesOf at *
  omega

/-! ### A build and its rounds -/

structure Built (backends : List UInt32) (vnodeCounts : UInt32 → Int) (g : Fill) (rounds : Nat) :
    Prop where
  accounted : Accounted g
  whole : maglevM ≤ dealt (quotas backends vnodeCounts) rounds
  short : ∀ r, r < rounds → dealt (quotas backends vnodeCounts) r < maglevM
  written : ∀ keep, writesOf keep g = dealt (quotasOf keep (startPerms backends vnodeCounts)) rounds

theorem builtRounds (nonempty : backends ≠ []) {fuel : Nat} {g : Fill}
    (filled : maglevFill fuel backends vnodeCounts = some g) :
    ∃ rounds, Built backends vnodeCounts g rounds := by
  obtain ⟨es, t, run, full, same⟩ := (fillExact nonempty g).mp ⟨fuel, filled⟩
  subst same
  have accounted := (runBalanced run).accounted
  have dealtAll := startDealt run
  rw [startQuotas] at dealtAll
  refine ⟨es.length, accounted, by omega, fun r before => ?_, fun keep => startDealtTo keep run⟩
  have early := startShort run before
  rwa [startQuotas] at early

theorem slotsCount (g : Fill) (id : UInt32) :
    (slotsFor g id).length = writesOf (fun other => decide (other = id)) g := by
  rw [slotsFor, List.length_map, writesOf, List.countP_eq_length_filter]

theorem slotsLive {g : Fill} {id : UInt32} (nonzero : id ≠ 0) :
    (g.writes.filter fun w => decide (w.2 = id)).Sublist (live g) := by
  refine List.monotone_filter_right _ fun w own => ?_
  rw [of_decide_eq_true own]
  exact decide_eq_true nonzero

theorem givenQuotaExact {fuel : Nat} {g : Fill} {id : UInt32} (nonzero : id ≠ 0)
    (filled : maglevFill fuel backends vnodeCounts = some g) :
    GivenQuota backends vnodeCounts g id ↔ FullyDealt backends vnodeCounts id := by
  by_cases nonempty : backends = []
  · subst nonempty
    cases Option.some.inj filled
    refine iff_of_true ⟨List.nodup_nil, rfl, nofun⟩ fun rounds whole => ?_
    rfl
  · obtain ⟨rounds, built⟩ := builtRounds nonempty filled
    have taken : (slotsFor g id).length = dealt (sharesOf backends vnodeCounts id) rounds :=
      (slotsCount g id).trans (built.written _)
    constructor
    · intro given later whole
      have full := taken.symm.trans given.full
      have reached : rounds ≤ later := by
        by_contra early
        have short := built.short later (by omega)
        omega
      have more := dealtMono (sharesOf backends vnodeCounts id) reached
      have total := dealtTotal (sharesOf backends vnodeCounts id) later
      unfold quotaOf at *
      omega
    · intro dealt_
      refine ⟨?_, taken.trans (dealt_ rounds built.whole), fun slot member => ?_⟩
      · exact ((slotsLive nonzero).map Prod.fst).nodup built.accounted.liveOnce
      · obtain ⟨w, inside, same⟩ := List.mem_map.mp member
        have shown := built.accounted.liveShown w ((slotsLive nonzero).subset inside)
        rw [← same, shown]
        exact of_decide_eq_true (List.mem_filter.mp inside).2

theorem treatedAlikeExact {k : Kernel} {cpu : Nat} {flow : Flow} {id : UInt32} {be : BackendEntry}
    (o : Reading) {fuel : Nat} {g : Fill} (picked : Picked k (lbPolicy k cpu flow).1 cpu id be)
    (filled : maglevFill fuel backends vnodeCounts = some g) :
    (Relays k (chain k cpu flow o) id ∧ Accounts k (chain k cpu flow o) cpu id) ∧
        GivenQuota backends vnodeCounts g id ↔
      (id ≠ 0 ∧ Available k cpu id) ∧ FullyDealt backends vnodeCounts id := by
  rw [chainExact o picked]
  constructor
  · intro ⟨⟨nonzero, available⟩, given⟩
    exact ⟨⟨nonzero, available⟩, (givenQuotaExact nonzero filled).mp given⟩
  · intro ⟨⟨nonzero, available⟩, fully⟩
    exact ⟨⟨nonzero, available⟩, (givenQuotaExact nonzero filled).mpr fully⟩

def reading : Reading := ⟨1000, false, true⟩

theorem soleTreated : ∃ fuel g, maglevFill fuel [1, 2] (fun _ => 1) = some g ∧
    (Relays (sole 1) (chain (sole 1) 0 client reading) 1 ∧
      Accounts (sole 1) (chain (sole 1) 0 client reading) 0 1) ∧
    GivenQuota [1, 2] (fun _ => 1) g 1 := by
  have dealable := dealableFitting twoBackends.toFitting fun _ => twoSkips
  obtain ⟨table, fuel, built⟩ := dealableReturns (by decide) dealable
  obtain ⟨g, filled, _⟩ := Option.map_eq_some_iff.mp built
  have picked : Picked (sole 1) (lbPolicy (sole 1) 0 client).1 0 1 (backendOf 1) :=
    pickedExact.mpr (solePicks (by decide +kernel))
  have available : Available (sole 1) 0 1 := ⟨by decide, rfl, rfl, rfl, .inr (by decide)⟩
  refine ⟨fuel, g, filled, (treatedAlikeExact reading picked filled).mpr ?_⟩
  exact ⟨⟨by decide, available⟩, fullyDealtFitting twoBackends.toFitting 1⟩

/-! ### Id 0 -/

theorem roundGrows {f g : Fill} {ps ps' : List PermState} (round : Round f ps g ps') :
    ∀ w ∈ f.writes, w ∈ g.writes := by
  induction round with
  | nil f => exact fun w member => member
  | idle spent rest ih => exact ih
  | place owed pick rest ih => exact fun w member => ih w (List.mem_cons_of_mem _ member)

theorem pickHere {table : MaglevTable} {p q : PermState} {slot : Fin maglevM}
    (pick : MaglevFill.Picks table p slot q) (empty : table[p.slot] = 0) : slot = p.slot := by
  have found : search table 1 p = some (p.slot, p.advance) := if_pos empty
  exact (pickUnique pick ⟨1, found⟩).1

theorem pairPerms : startPerms [0, 10199] (fun _ => 1) =
    [permState 0 32769, permState 10199 32768] := by
  have shares : quotas [0, 10199] (fun _ => 1) = [32769, 32768] := by decide +kernel
  rw [startPerms, shares]
  rfl

theorem sameSlot : (permState 0 32769).slot = (permState 10199 32768).slot := by decide +kernel

/-- Both backends look at the same slot first: the turn of 0 leaves it empty to all appearance,
and 10199 takes it. -/
theorem firstRound {g : Fill} {ps : List PermState}
    (round : Round emptyFill [permState 0 32769, permState 10199 32768] g ps) :
    ((permState 0 32769).slot, 0) ∈ g.writes ∧ ((permState 0 32769).slot, 10199) ∈ g.writes := by
  cases round with
  | idle spent _ => exact absurd spent (by decide)
  | place _ pick rest =>
    have empty : ∀ slot : Fin maglevM, emptyFill.table[slot] = 0 := fun slot =>
      emptyAccounted.liveEmpty slot List.not_mem_nil
    obtain ⟨_, rfl⟩ := pickState pick
    have here := pickHere pick (empty _)
    subst here
    cases rest with
    | idle spent _ => exact absurd spent (by decide)
    | place _ pick rest =>
      obtain ⟨_, rfl⟩ := pickState pick
      have there := pickHere pick (by
        rw [writeGet]
        split
        · rfl
        · exact empty _)
      rw [← sameSlot] at there
      subst there
      cases rest
      exact ⟨List.mem_cons_of_mem _ List.mem_cons_self, List.mem_cons_self⟩

theorem pairWrites {fuel : Nat} {g : Fill} (filled : maglevFill fuel [0, 10199] (fun _ => 1) = some g) :
    ((permState 0 32769).slot, 0) ∈ g.writes ∧ g.table[(permState 0 32769).slot] = 10199 := by
  obtain ⟨es, t, run, full, same⟩ := (fillExact (by decide) g).mp ⟨fuel, filled⟩
  subst same
  rw [start, pairPerms] at run
  have accounted := (runBalanced run).accounted
  cases run with
  | nil => exact absurd full (by decide)
  | cons head tail =>
    have grows : ∀ w, ∀ s e t, w ∈ s.fill.writes → RoundStep s e t → w ∈ t.fill.writes :=
      fun w _ _ _ held step => roundGrows step.2 w held
    obtain ⟨zero, other⟩ := firstRound head.2
    have shown : ((permState 0 32769).slot, 10199) ∈ live t.fill :=
      List.mem_filter.mpr ⟨StepRun.runInvariant (grows _) tail other, by decide⟩
    exact ⟨StepRun.runInvariant (grows _) tail zero, accounted.liveShown _ shown⟩

theorem pairFitting : Fitting [0, 10199] fun _ => 1 :=
  ⟨by decide, by decide, fun _ _ => by decide, by decide⟩

theorem pairSkips {id : UInt32} (member : id ∈ [0, 10199]) : maglevHash id 0xBEEF % 65536 ≠ 65535 := by
  rcases List.mem_cons.mp member with rfl | last
  · decide
  · rw [List.mem_singleton.mp last]
    decide

theorem zeroStopped : ∃ fuel g, maglevFill fuel [0, 10199] (fun _ => 1) = some g ∧
    Picked (sole 0) (lbPolicy (sole 0) 0 client).1 0 0 (backendOf 1) ∧ Available (sole 0) 0 0 ∧
    (chain (sole 0) 0 client reading).relayed = [] ∧
    requests (chain (sole 0) 0 client reading) 0 0 = 0 ∧
    (∃ slot ∈ slotsFor g 0, g.table[slot] = 10199) ∧
    ¬ ((Relays (sole 0) (chain (sole 0) 0 client reading) 0 ∧
        Accounts (sole 0) (chain (sole 0) 0 client reading) 0 0) ∧
      GivenQuota [0, 10199] (fun _ => 1) g 0) := by
  obtain ⟨table, fuel, built⟩ :=
    dealableReturns (by decide) (dealableFitting pairFitting fun _ => pairSkips)
  obtain ⟨g, filled, _⟩ := Option.map_eq_some_iff.mp built
  obtain ⟨written, taken⟩ := pairWrites filled
  have picks : Picks (sole 0) 0 client 0 (backendOf 1) := solePicks (by decide +kernel)
  have stopped := chainZero reading picks
  have slot : (permState 0 32769).slot ∈ slotsFor g 0 :=
    List.mem_map.mpr ⟨_, List.mem_filter.mpr ⟨written, decide_eq_true rfl⟩, rfl⟩
  refine ⟨fuel, g, filled, pickedExact.mpr picks, ⟨by decide, rfl, rfl, rfl, .inr (by decide)⟩,
    ?_, ?_, ⟨_, slot, taken⟩, fun all => ?_⟩
  · rw [stopped]
    rfl
  · rw [stopped]
    rfl
  · exact absurd (taken.symm.trans (all.2.kept _ slot)) (by decide)

end OmegaLb.InstanceZero
