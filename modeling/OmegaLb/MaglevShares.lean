import OmegaLb.Maglev
import OmegaLb.Apportion
import Mathlib.Algebra.BigOperators.Ring.Finset

/-! The shares of BuildMaglevTable. For non-negative counts whose total times 65537
fits an int they are the apportionment of 65537 slots; in general the 64-bit sums
do not depend on the order of the backends, the recipients of the remainder do. -/
namespace OmegaLb.MaglevShares
open Maglev
open Apportion (floors leftover topUp shares)

/-! ### Wrapped sums -/

theorem wrapFoldAdd (backends : List UInt32) (counts : UInt32 → Int) (start : Int) :
    backends.foldl (fun total id => wrapInt (total + counts id)) (wrapInt start) =
      wrapInt (start + (backends.map counts).sum) := by
  induction backends generalizing start with
  | nil => simp
  | cons id rest ih =>
    simp only [List.foldl_cons, wrapIntAdd, ih, List.map_cons, List.sum_cons, Int.add_assoc]

theorem totalWeightWrap (backends : List UInt32) (counts : UInt32 → Int) :
    totalWeight backends counts = wrapInt (backends.map counts).sum := by
  have fold := wrapFoldAdd backends counts 0
  rwa [Int.zero_add] at fold

theorem wrapFoldSub (scaled : List Int) (start : Int) :
    scaled.foldl (fun rem quota => wrapInt (rem - quota)) (wrapInt start) =
      wrapInt (start - scaled.sum) := by
  induction scaled generalizing start with
  | nil => simp
  | cons quota rest ih =>
    simp only [List.foldl_cons, Int.sub_eq_add_neg, wrapIntAdd, List.sum_cons, Int.neg_add,
      ← Int.add_assoc] at *
    exact ih _

theorem remainderWrap (scaled : List Int) : remainder scaled = wrapInt (maglevM - scaled.sum) :=
  wrapFoldSub scaled maglevM

/-! ### The remainder loop -/

def bump (quota : Int) : Int := wrapInt (quota + 1)

theorem distributeLength (rem i : Nat) (qs : List Int) : (distribute rem i qs).length = qs.length := by
  induction rem generalizing i qs with
  | zero => rfl
  | succ rem ih => simp [distribute, ih]

theorem distributePrefix (k rem : Nat) (qs : List Int) (bound : k ≤ qs.length) :
    distribute (k + rem) 0 qs =
      distribute rem (k % qs.length) (qs.mapIdx fun i q => if i < k then bump q else q) := by
  induction k generalizing rem with
  | zero =>
    have same : (qs.mapIdx fun i q => if i < 0 then bump q else q) = qs :=
      List.ext_getElem (by simp) (by simp)
    rw [same]
    simp
  | succ k ih =>
    have step : (qs.mapIdx fun i q => if i < k then bump q else q).modify k bump =
        qs.mapIdx fun i q => if i < k + 1 then bump q else q := by
      refine List.ext_getElem (by simp) fun i _ _ => ?_
      rw [List.getElem_modify, List.getElem_mapIdx, List.getElem_mapIdx]
      by_cases here : k = i
      · simp [here]
      · rw [if_neg here]
        simp only [show (i < k + 1) = (i < k) from propext (by omega)]
    rw [show k + 1 + rem = k + (rem + 1) by omega, ih (rem + 1) (by omega),
      Nat.mod_eq_of_lt (show k < qs.length by omega)]
    simp only [distribute, List.length_mapIdx]
    exact congrArg _ step

theorem distributePartial {rem : Nat} {qs : List Int} (bound : rem ≤ qs.length) :
    distribute rem 0 qs = qs.mapIdx fun i q => if i < rem then bump q else q :=
  distributePrefix rem 0 qs bound

theorem distributeWhole (turns : Nat) (qs : List Int) :
    distribute (turns * qs.length) 0 qs = qs.map bump^[turns] := by
  induction turns generalizing qs with
  | zero => simp [distribute]
  | succ turns ih =>
    have pass : (qs.mapIdx fun i q => if i < qs.length then bump q else q) = qs.map bump := by
      refine List.ext_getElem (by simp) fun i inside _ => ?_
      have bound : i < qs.length := by simpa using inside
      simp [bound]
    have rest := ih (qs.map bump)
    rw [List.length_map] at rest
    rw [show (turns + 1) * qs.length = qs.length + turns * qs.length by
        rw [Nat.add_mul, Nat.one_mul, Nat.add_comm],
      distributePrefix qs.length _ qs (Nat.le_refl _), Nat.mod_self, pass, rest, List.map_map]
    rfl

/-! ### The starting states -/

theorem quotasLength (backends : List UInt32) (vnodeCounts : UInt32 → Int) :
    (quotas backends vnodeCounts).length = backends.length := by
  unfold quotas
  rw [distributeLength]
  simp [scaledQuotas]

theorem startPermsZip (backends : List UInt32) (vnodeCounts : UInt32 → Int) :
    startPerms backends vnodeCounts =
      (backends.zip (quotas backends vnodeCounts)).map fun e => permState e.1 e.2 := by
  simp [startPerms, List.zip, List.map_zipWith]

theorem startIds (backends : List UInt32) (vnodeCounts : UInt32 → Int) :
    (startPerms backends vnodeCounts).map PermState.id = backends := by
  rw [startPermsZip, List.map_map]
  exact List.map_fst_zip (by rw [quotasLength])

theorem startQuotas (backends : List UInt32) (vnodeCounts : UInt32 → Int) :
    (startPerms backends vnodeCounts).map PermState.quota = quotas backends vnodeCounts := by
  rw [startPermsZip, List.map_map]
  exact List.map_snd_zip (by rw [quotasLength])

theorem startNonzero {backends : List UInt32} (vnodeCounts : UInt32 → Int) (nonzero : 0 ∉ backends) :
    ∀ p ∈ startPerms backends vnodeCounts, p.id ≠ 0 := by
  intro p member zero
  have inside : p.id ∈ (startPerms backends vnodeCounts).map PermState.id :=
    List.mem_map.mpr ⟨p, member, rfl⟩
  rw [startIds, zero] at inside
  exact nonzero inside

/-! ### Inputs without overflow -/

structure Fitting (backends : List UInt32) (vnodeCounts : UInt32 → Int) : Prop where
  nonempty : backends ≠ []
  distinct : backends.Nodup
  counts : ∀ id ∈ backends, 0 ≤ vnodeCounts id
  fits : (backends.map vnodeCounts).sum * 65537 < 2 ^ 63

structure Sane (backends : List UInt32) (vnodeCounts : UInt32 → Int) : Prop
    extends Fitting backends vnodeCounts where
  nonzero : 0 ∉ backends

def natWeight (backends : List UInt32) (vnodeCounts : UInt32 → Int) (id : UInt32) : Nat :=
  if (backends.map vnodeCounts).sum = 0 then 1 else (vnodeCounts id).toNat

def natWeights (backends : List UInt32) (vnodeCounts : UInt32 → Int) : List Nat :=
  backends.map (natWeight backends vnodeCounts)

theorem scaledQuotaNat {w total : Nat} (fits : w * 65537 < 2 ^ 63) :
    scaledQuota total w = ((w * 65537 / total : Nat) : Int) := by
  have inner : FitsInt ((w : Int) * 65537) := ⟨by omega, by omega⟩
  have small : w * 65537 / total ≤ w * 65537 := Nat.div_le_self _ _
  generalize share : w * 65537 / total = q at *
  have outer : ((w : Int) * 65537).tdiv total = q := by
    rw [Int.tdiv_eq_ediv_of_nonneg (by omega), ← share]
    rfl
  calc wrapInt ((wrapInt ((w : Int) * 65537)).tdiv total)
      = wrapInt q := by rw [wrapIntFits inner, outer]
    _ = q := wrapIntFits ⟨by omega, by omega⟩

theorem sumNonneg {backends : List UInt32} {vnodeCounts : UInt32 → Int}
    (counts : ∀ id ∈ backends, 0 ≤ vnodeCounts id) : 0 ≤ (backends.map vnodeCounts).sum := by
  apply List.sum_nonneg
  intro w member
  obtain ⟨id, inside, same⟩ := List.mem_map.mp member
  rw [← same]
  exact counts id inside

theorem memLeSum {ws : List Nat} {w : Nat} (member : w ∈ ws) : w ≤ ws.sum :=
  List.single_le_sum (fun _ _ => Nat.zero_le _) w member

variable {backends : List UInt32} {vnodeCounts : UInt32 → Int}

theorem natWeightsSum (fitting : Fitting backends vnodeCounts) :
    ((natWeights backends vnodeCounts).sum : Int) =
      if (backends.map vnodeCounts).sum = 0 then (backends.length : Int)
      else (backends.map vnodeCounts).sum := by
  unfold natWeights natWeight
  split
  · simp
  · have counts := fitting.counts
    clear * - counts
    induction backends with
    | nil => rfl
    | cons id rest ih =>
      have head := counts id List.mem_cons_self
      have tail := ih fun x inside => counts x (List.mem_cons_of_mem id inside)
      simp only [List.map_cons, List.sum_cons]
      push_cast [tail]
      omega

theorem natWeightsPos (fitting : Fitting backends vnodeCounts) :
    0 < (natWeights backends vnodeCounts).sum := by
  have sum := natWeightsSum fitting
  have low := sumNonneg fitting.counts
  have length := List.length_pos_iff.mpr fitting.nonempty
  split at sum <;> omega

theorem natWeightFits (fitting : Fitting backends vnodeCounts) {id : UInt32} (member : id ∈ backends) :
    natWeight backends vnodeCounts id * 65537 < 2 ^ 63 := by
  have fits := fitting.fits
  have sum := natWeightsSum fitting
  have le : natWeight backends vnodeCounts id ≤ (natWeights backends vnodeCounts).sum :=
    memLeSum (List.mem_map.mpr ⟨id, member, rfl⟩)
  split at sum
  · rename_i zero
    simp [natWeight, zero]
  · omega

theorem scaledQuotasFitting (fitting : Fitting backends vnodeCounts) :
    scaledQuotas backends vnodeCounts =
      (floors maglevM (natWeights backends vnodeCounts)).map Nat.cast := by
  have sum := natWeightsSum fitting
  have low := sumNonneg fitting.counts
  have fits := fitting.fits
  have total : totalWeight backends vnodeCounts = (backends.map vnodeCounts).sum := by
    rw [totalWeightWrap, wrapIntFits ⟨by omega, by omega⟩]
  have weightsNat : (weights backends vnodeCounts).2 = ((natWeights backends vnodeCounts).sum : Nat) ∧
      ∀ id ∈ backends, (weights backends vnodeCounts).1 id = (natWeight backends vnodeCounts id : Nat) := by
    unfold weights natWeight
    rw [total]
    split at sum
    · rename_i zero
      simp only [zero, if_true]
      exact ⟨sum.symm, fun id member => if_pos member⟩
    · rename_i some_
      simp only [some_, if_false]
      exact ⟨sum.symm, fun id member => (Int.toNat_of_nonneg (fitting.counts id member)).symm⟩
  have shape : scaledQuotas backends vnodeCounts = backends.map fun id =>
      scaledQuota (weights backends vnodeCounts).2 ((weights backends vnodeCounts).1 id) := rfl
  rw [shape, floors, natWeights, List.map_map, List.map_map]
  refine List.map_congr_left fun id member => ?_
  rw [weightsNat.1, weightsNat.2 id member, scaledQuotaNat (natWeightFits fitting member)]
  rfl

theorem remainderFitting (fitting : Fitting backends vnodeCounts) :
    (remainder (scaledQuotas backends vnodeCounts)).toNat =
      leftover maglevM (natWeights backends vnodeCounts) := by
  have slots : maglevM = 65537 := rfl
  have whole := Apportion.leftoverAdd maglevM (natWeightsPos fitting)
  have castSum : ((floors maglevM (natWeights backends vnodeCounts)).map (Nat.cast : Nat → Int)).sum =
      ((floors maglevM (natWeights backends vnodeCounts)).sum : Nat) := by
    rw [Nat.cast_list_sum]
  rw [remainderWrap, scaledQuotasFitting fitting, castSum, wrapIntFits ⟨by omega, by omega⟩]
  omega

theorem quotasFitting (fitting : Fitting backends vnodeCounts) :
    quotas backends vnodeCounts = (shares maglevM (natWeights backends vnodeCounts)).map Nat.cast := by
  have slots : maglevM = 65537 := rfl
  have whole := Apportion.leftoverAdd maglevM (natWeightsPos fitting)
  have few := Apportion.leftoverLt maglevM (natWeightsPos fitting)
  have scaled := scaledQuotasFitting fitting
  have length : (floors maglevM (natWeights backends vnodeCounts)).length =
      (natWeights backends vnodeCounts).length := by simp [floors]
  unfold quotas
  dsimp only
  rw [remainderFitting fitting, distributePartial (by rw [scaled, List.length_map, length]; omega), scaled]
  refine List.ext_getElem (by simp [shares, topUp]) fun i inside _ => ?_
  have bound : i < (floors maglevM (natWeights backends vnodeCounts)).length := by simpa using inside
  have small : (floors maglevM (natWeights backends vnodeCounts))[i] ≤ maglevM := by
    have le := memLeSum (List.getElem_mem bound)
    omega
  simp only [List.getElem_mapIdx, List.getElem_map, shares, topUp]
  split
  · rw [bump, wrapIntFits ⟨by omega, by omega⟩]
    omega
  · rfl

theorem quotasSum (fitting : Fitting backends vnodeCounts) :
    (quotas backends vnodeCounts).sum = maglevM := by
  rw [quotasFitting fitting, ← Nat.cast_list_sum, Apportion.sharesSum maglevM (natWeightsPos fitting)]

theorem quotasNonneg (fitting : Fitting backends vnodeCounts) :
    ∀ q ∈ quotas backends vnodeCounts, 0 ≤ q := by
  intro q member
  rw [quotasFitting fitting] at member
  obtain ⟨n, _, rfl⟩ := List.mem_map.mp member
  exact Int.natCast_nonneg n

theorem fittingPerm {other : List UInt32} (perm : backends.Perm other)
    (fitting : Fitting backends vnodeCounts) : Fitting other vnodeCounts where
  nonempty := fun empty => fitting.nonempty (List.Perm.eq_nil (empty ▸ perm))
  distinct := perm.nodup_iff.mp fitting.distinct
  counts := fun id member => fitting.counts id (perm.mem_iff.mpr member)
  fits := by rw [← (perm.map vnodeCounts).sum_eq]; exact fitting.fits

theorem sanePerm {other : List UInt32} (perm : backends.Perm other)
    (sane : Sane backends vnodeCounts) : Sane other vnodeCounts :=
  ⟨fittingPerm perm sane.toFitting, fun member => sane.nonzero (perm.mem_iff.mpr member)⟩

theorem natWeightPerm {other : List UInt32} (perm : backends.Perm other) :
    natWeight other vnodeCounts = natWeight backends vnodeCounts := by
  funext id
  simp only [natWeight, (perm.map vnodeCounts).sum_eq]

theorem natWeightsPerm {other : List UInt32} (perm : backends.Perm other) :
    (natWeights backends vnodeCounts).Perm (natWeights other vnodeCounts) := by
  simp only [natWeights, natWeightPerm perm]
  exact perm.map _

end OmegaLb.MaglevShares
