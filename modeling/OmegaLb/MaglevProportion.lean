import OmegaLb.MaglevTermination

/-! A finished table: full, in proportion to the weights, and written once a slot. -/
namespace OmegaLb.MaglevProportion
open Maglev MaglevShares MaglevFill
open Apportion (floors leftover topUp shares)

variable {backends : List UInt32} {vnodeCounts : UInt32 → Int}

theorem owedAbsent {ids : List UInt32} (quotas : List Int) {id : UInt32} (absent : id ∉ ids) :
    owed (List.zipWith permState ids quotas) id = 0 := by
  induction ids generalizing quotas with
  | nil => rfl
  | cons x rest ih =>
    cases quotas with
    | nil => rfl
    | cons q quotas =>
      obtain ⟨other, later⟩ := not_or.mp (List.mem_cons.not.mp absent)
      have tail := ih quotas later
      simp only [owed, List.zipWith_cons_cons, List.map_cons, List.sum_cons] at *
      rw [tail, if_neg (fun same => other same.symm), Int.zero_add]

theorem owedStart {ids : List UInt32} {quotas : List Int} (distinct : ids.Nodup)
    (same : quotas.length = ids.length) (i : Nat) (inside : i < ids.length) :
    owed (List.zipWith permState ids quotas) ids[i] = quotas[i] := by
  induction ids generalizing quotas i with
  | nil => simp at inside
  | cons x rest ih =>
    obtain ⟨absent, distinct⟩ := List.nodup_cons.mp distinct
    cases quotas with
    | nil => simp at same
    | cons q quotas =>
      have length : quotas.length = rest.length := by simpa using same
      cases i with
      | zero =>
        have tail := owedAbsent quotas absent
        simp only [owed, List.zipWith_cons_cons, List.map_cons, List.sum_cons,
          List.getElem_cons_zero] at *
        rw [tail, Int.add_zero]
        exact if_pos rfl
      | succ i =>
        have shorter : i < rest.length := by simpa using inside
        have tail := ih distinct length i shorter
        have other : x ≠ rest[i] := fun equal => absent (equal ▸ List.getElem_mem _)
        simp only [owed, List.zipWith_cons_cons, List.map_cons, List.sum_cons,
          List.getElem_cons_succ] at *
        rw [tail, if_neg (show (permState x q).id ≠ rest[i] from other), Int.zero_add]

theorem nothingOwed {ps : List PermState} (quotas : ∀ p ∈ ps, 0 ≤ p.quota)
    (none_ : (ps.map PermState.quota).sum ≤ 0) (id : UInt32) : owed ps id = 0 := by
  induction ps with
  | nil => rfl
  | cons p ps ih =>
    have head := quotas p List.mem_cons_self
    have tail : ∀ q ∈ ps, 0 ≤ q.quota := fun q inside => quotas q (List.mem_cons_of_mem p inside)
    have rest : 0 ≤ (ps.map PermState.quota).sum := by
      refine List.sum_nonneg fun q member => ?_
      obtain ⟨r, inside, same⟩ := List.mem_map.mp member
      rw [← same]
      exact tail r inside
    simp only [List.map_cons, List.sum_cons] at none_
    have last := ih tail (by omega)
    simp only [owed, List.map_cons, List.sum_cons] at *
    rw [last]
    split <;> omega

theorem heldQuota (sane : Sane backends vnodeCounts) {fuel : Nat} {g : Fill}
    (filled : maglevFill fuel backends vnodeCounts = some g) :
    Consistent g ∧ maglevM ≤ g.filled ∧
      ∀ id, held g id = owed (startPerms backends vnodeCounts) id := by
  obtain ⟨es, t, run, full, rfl⟩ := (fillExact sane.nonempty g).mp ⟨fuel, filled⟩
  have balanced := runBalanced run
  have consistent := runConsistent (startNonzero vnodeCounts sane.nonzero) run
  have quotasStart : ∀ p ∈ startPerms backends vnodeCounts, 0 ≤ p.quota := by
    intro p member
    refine quotasNonneg sane.toFitting _ ?_
    rw [← startQuotas]
    exact List.mem_map.mpr ⟨p, member, rfl⟩
  have total := balanced.total
  simp only [startQuotas, quotasSum sane.toFitting] at total
  refine ⟨consistent, full, fun id => ?_⟩
  have last := nothingOwed (balanced.quotas quotasStart) (by omega) id
  have account := balanced.accounts id
  rwa [last, Int.add_zero] at account

theorem shareAt (fitting : Fitting backends vnodeCounts) (i : Nat) (inside : i < backends.length)
    (bound : i < (quotas backends vnodeCounts).length) :
    (quotas backends vnodeCounts)[i] =
      ((natWeight backends vnodeCounts backends[i] * maglevM /
          (natWeights backends vnodeCounts).sum +
        if i < leftover maglevM (natWeights backends vnodeCounts) then 1 else 0 : Nat) : Int) := by
  have length : i < (natWeights backends vnodeCounts).length := by
    simpa [natWeights] using inside
  rw [List.getElem_of_eq (quotasFitting fitting) bound, List.getElem_map, Apportion.sharesAt _ _ _ _ length]
  simp only [natWeights, List.getElem_map]

theorem heldExact (sane : Sane backends vnodeCounts) {fuel : Nat} {g : Fill}
    (filled : maglevFill fuel backends vnodeCounts = some g) (i : Nat)
    (inside : i < backends.length) :
    g.table.count backends[i] =
      natWeight backends vnodeCounts backends[i] * maglevM / (natWeights backends vnodeCounts).sum +
        if i < leftover maglevM (natWeights backends vnodeCounts) then 1 else 0 := by
  obtain ⟨consistent, full, accounts⟩ := heldQuota sane filled
  have bound : i < (quotas backends vnodeCounts).length := by rw [quotasLength]; exact inside
  have account := accounts backends[i]
  rw [startPerms, owedStart sane.distinct (quotasLength _ _) i inside, shareAt sane.toFitting i inside bound,
    held, ← heldWrites consistent full] at account
  exact Int.ofNat.inj account

theorem slotsOwned (sane : Sane backends vnodeCounts) {fuel : Nat} {g : Fill}
    (filled : maglevFill fuel backends vnodeCounts = some g) (slot : Fin maglevM) :
    g.table[slot] ∈ backends := by
  obtain ⟨consistent, full, accounts⟩ := heldQuota sane filled
  by_contra absent
  have written := slotWritten consistent full slot
  have none_ := accounts g.table[slot]
  rw [startPerms, owedAbsent _ absent, held] at none_
  have member : g.table[slot] ∈ g.writes.map Prod.snd := List.mem_map.mpr ⟨_, written, rfl⟩
  have positive := List.count_pos_iff.mpr member
  omega

theorem tableProportional (sane : Sane backends vnodeCounts) {fuel : Nat} {g : Fill}
    (filled : maglevFill fuel backends vnodeCounts = some g) :
    buildMaglevTable fuel backends vnodeCounts = some g.table ∧
      (∀ slot : Fin maglevM, g.table[slot] ∈ backends) ∧
      leftover maglevM (natWeights backends vnodeCounts) < backends.length ∧
      (∀ i (inside : i < backends.length), g.table.count backends[i] =
        natWeight backends vnodeCounts backends[i] * maglevM / (natWeights backends vnodeCounts).sum +
          if i < leftover maglevM (natWeights backends vnodeCounts) then 1 else 0) ∧
      (g.writes.map Prod.fst).Nodup ∧ ∀ w ∈ g.writes, g.table[w.1] = w.2 := by
  have consistent := (heldQuota sane filled).1
  have few := Apportion.leftoverLt maglevM (natWeightsPos sane.toFitting)
  have length : (natWeights backends vnodeCounts).length = backends.length := by simp [natWeights]
  refine ⟨?_, slotsOwned sane filled, by omega, heldExact sane filled, writesOnce consistent,
    writesShown consistent⟩
  rw [buildMaglevTable, filled, Option.map_some]

theorem tableOfTwoBackends : ∃ fuel g, maglevFill fuel [1, 2] (fun _ => 1) = some g ∧
    g.table.count 1 = 32769 ∧ g.table.count 2 = 32768 ∧ (g.writes.map Prod.fst).Nodup := by
  have dealable := MaglevTermination.dealableFitting
    MaglevTermination.twoBackends.toFitting fun _ => MaglevTermination.twoSkips
  obtain ⟨table, fuel, built⟩ := MaglevTermination.dealableReturns (by decide) dealable
  obtain ⟨g, filled, _⟩ := Option.map_eq_some_iff.mp built
  obtain ⟨_, _, _, counts, once, _⟩ := tableProportional MaglevTermination.twoBackends filled
  exact ⟨fuel, g, filled, counts 0 (by decide), counts 1 (by decide), once⟩

end OmegaLb.MaglevProportion
