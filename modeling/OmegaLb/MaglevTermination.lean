import OmegaLb.MaglevFill
import OmegaLb.WrappedProgression
import Mathlib.Tactic.NormNum.GCD

/-! When BuildMaglevTable ends. A search sequence wraps at 2^32 before it is reduced
modulo 65537: it meets every slot unless the skip is 65536, and then misses exactly
one. A build ends when the shares come out in whole rounds and no backend with that
skip comes to its turn when the slot it misses is the only one left. -/
namespace OmegaLb.MaglevTermination
open Maglev MaglevShares MaglevFill
open StepRun (Run)

/-! ### The search sequence -/

def atNext (p : PermState) (next : UInt32) : PermState := { p with next := next }

theorem slotValue (p : PermState) : (p.slot : Nat) =
    (p.offset.toNat + p.next.toNat * p.skip.toNat) % (65536 * 65536) % 65537 := by
  simp only [PermState.slot, UInt32.toNat_add, UInt32.toNat_mul, Nat.add_mod_mod]

theorem meetsEverySlot {p : PermState} (step : 0 < p.skip.toNat) (short : p.skip.toNat < 65536)
    (slot : Fin maglevM) : ∃ next : UInt32, (atNext p next).slot = slot := by
  have divides : Nat.gcd p.skip.toNat (65536 * 65536) ≤ p.skip.toNat := Nat.gcd_le_left _ step
  have coprime : Nat.Coprime (Nat.gcd p.skip.toNat (65536 * 65536)) 65537 :=
    Nat.Coprime.coprime_dvd_left (Nat.gcd_dvd_right _ _) (by norm_num)
  obtain ⟨n, inside, lands⟩ := @WrappedProgression.covers _ _ p.offset.toNat _ _ step coprime
    (by omega) slot.isLt
  refine ⟨UInt32.ofNat n, Fin.ext ?_⟩
  rw [slotValue]
  simp only [atNext]
  rwa [UInt32.toNat_ofNat_of_lt' (by omega)]

def blindSlot (p : PermState) : Fin maglevM := ⟨p.offset.toNat % 65536 + 1, by unfold maglevM; omega⟩

theorem missesBlindSlot {p : PermState} (skip : p.skip = 65536) (next : UInt32) :
    (atNext p next).slot ≠ blindSlot p := by
  intro same
  have value := congrArg Fin.val same
  rw [slotValue] at value
  simp only [atNext, skip] at value
  exact WrappedProgression.misses (by decide) p.offset.toNat next.toNat value

theorem searchReaches {table : MaglevTable} {fuel k : Nat} {p : PermState} {slot : Fin maglevM}
    (inside : k < fuel) (lands : (atNext p (p.next + UInt32.ofNat k)).slot = slot)
    (empty : table[slot] = 0) : ∃ found q, search table fuel p = some (found, q) := by
  induction fuel generalizing k p with
  | zero => omega
  | succ fuel ih =>
    simp only [search]
    by_cases here : table[p.slot] = 0
    · exact ⟨_, _, if_pos here⟩
    · rw [if_neg here]
      cases k with
      | zero =>
        have same : p.slot = slot := by simpa [atNext] using lands
        subst same
        exact absurd empty here
      | succ k =>
        have shifted : p.advance.next + UInt32.ofNat k = p.next + UInt32.ofNat (k + 1) := by
          rw [PermState.advance, UInt32.ofNat_add, UInt32.add_assoc, UInt32.add_comm 1]
          rfl
        refine ih (Nat.lt_of_succ_lt_succ inside) ?_
        rw [shifted]
        exact lands

theorem picksOf {table : MaglevTable} {p : PermState} {next : UInt32} {slot : Fin maglevM}
    (lands : (atNext p next).slot = slot) (empty : table[slot] = 0) :
    ∃ found q, Picks table p found q := by
  have reach : p.next + UInt32.ofNat (next - p.next).toNat = next := by
    rw [UInt32.ofNat_toNat]
    grind
  obtain ⟨found, q, ok⟩ := @searchReaches table (2 ^ 32) (next - p.next).toNat p slot
    (UInt32.toNat_lt _) (by rw [reach]; exact lands) empty
  exact ⟨found, q, _, ok⟩

/-- Skip and offset as BuildMaglevTable computes them. -/
structure Stepping (p : PermState) : Prop where
  step : 0 < p.skip.toNat
  bound : p.skip.toNat ≤ 65536
  offset : p.offset.toNat ≤ 65536

theorem meetsOthers {p : PermState} (skip : p.skip = 65536) (offset : p.offset.toNat ≤ 65536)
    {slot : Fin maglevM} (other : slot ≠ blindSlot p) : ∃ next : UInt32, (atNext p next).slot = slot := by
  have residue : slot.val ≠ p.offset.toNat % 65536 + 1 := fun same => other (Fin.ext same)
  obtain ⟨n, inside, lands⟩ := WrappedProgression.coversOthers (by decide) offset slot.isLt residue
  refine ⟨UInt32.ofNat n, Fin.ext ?_⟩
  rw [slotValue]
  simp only [atNext, skip]
  rwa [UInt32.toNat_ofNat_of_lt' (Nat.lt_trans inside (by decide))]

/-- A search ends when there is an empty slot, and for skip 65536 one beside the slot that it misses. -/
def Reachable (table : MaglevTable) (p : PermState) : Prop :=
  ∃ slot : Fin maglevM, table[slot] = 0 ∧ (p.skip = 65536 → slot ≠ blindSlot p)

theorem pickSlot {table : MaglevTable} {p q : PermState} {slot : Fin maglevM}
    (pick : Picks table p slot q) : ∃ next, (atNext p next).slot = slot := by
  obtain ⟨fuel, found⟩ := pick
  induction fuel generalizing p with
  | zero => simp [search] at found
  | succ fuel ih =>
    simp only [search] at found
    split at found
    · cases Option.some.inj found
      exact ⟨p.next, rfl⟩
    · obtain ⟨next, lands⟩ := ih found
      exact ⟨next, lands⟩

theorem picksExact {p : PermState} (stepping : Stepping p) (table : MaglevTable) :
    (∃ slot q, Picks table p slot q) ↔ Reachable table p := by
  obtain ⟨step, bound, offset⟩ := stepping
  constructor
  · rintro ⟨slot, q, pick⟩
    obtain ⟨next, lands⟩ := pickSlot pick
    exact ⟨slot, pickEmpty pick, fun skip same => missesBlindSlot skip next (lands.trans same)⟩
  · rintro ⟨slot, empty, other⟩
    by_cases skip : p.skip = 65536
    · obtain ⟨next, lands⟩ := meetsOthers skip offset (other skip)
      exact picksOf lands empty
    · have below : p.skip.toNat ≠ 65536 := fun same => skip (UInt32.toNat_inj.mp same)
      obtain ⟨next, lands⟩ := meetsEverySlot step (by omega) slot
      exact picksOf lands empty

/-! ### Rounds that end -/

def dealt (quotas : List Int) (rounds : Nat) : Nat := (quotas.map fun q => min q.toNat rounds).sum

theorem dealtNone (quotas : List Int) : dealt quotas 0 = 0 := by simp [dealt]

theorem dealtMono (quotas : List Int) {few many : Nat} (le : few ≤ many) :
    dealt quotas few ≤ dealt quotas many :=
  List.sum_le_sum fun _ _ => min_le_min_left _ le

theorem dealtPos {quotas : List Int} {rounds : Nat} :
    0 < dealt quotas rounds ↔ 0 < rounds ∧ ∃ q ∈ quotas, 0 < q := by
  rw [dealt, List.sum_pos_iff_exists_pos_nat]
  constructor
  · rintro ⟨n, member, positive⟩
    obtain ⟨q, inside, rfl⟩ := List.mem_map.mp member
    exact ⟨by omega, q, inside, by omega⟩
  · rintro ⟨some_, q, inside, positive⟩
    exact ⟨_, List.mem_map.mpr ⟨q, inside, rfl⟩, by omega⟩

def quotasOf (keep : UInt32 → Bool) (ps : List PermState) : List Int :=
  (ps.filter fun p => keep p.id).map PermState.quota

def writesOf (keep : UInt32 → Bool) (f : Fill) : Nat := f.writes.countP fun w => keep w.2

theorem dealtSplit (keep : UInt32 → Bool) (ps : List PermState) (rounds : Nat) :
    dealt (ps.map PermState.quota) rounds =
      dealt (quotasOf keep ps) rounds + dealt (quotasOf (fun id => !keep id) ps) rounds := by
  induction ps with
  | nil => rfl
  | cons p ps ih =>
    simp only [dealt, quotasOf, List.map_cons, List.sum_cons, List.filter_cons] at *
    cases keep p.id <;> simp only [Bool.not_true, Bool.not_false, if_true, if_false,
      Bool.false_eq_true, List.map_cons, List.sum_cons] <;> omega

theorem roundDealtTo (keep : UInt32 → Bool) {f ps f' ps'} (round : Round f ps f' ps')
    (rounds : Nat) : writesOf keep f' + dealt (quotasOf keep ps') rounds =
      writesOf keep f + dealt (quotasOf keep ps) (rounds + 1) := by
  induction round with
  | nil f => rfl
  | @idle f p ps f' ps' spent rest ih =>
    simp only [dealt, quotasOf, List.filter_cons] at *
    split
    · simp only [List.map_cons, List.sum_cons]
      omega
    · exact ih
  | @place f p ps slot q f' ps' owed pick rest ih =>
    obtain ⟨next, rfl⟩ := pickState pick
    simp only [dealt, quotasOf, writesOf, Fill.write, List.filter_cons, List.countP_cons] at *
    split
    · rename_i kept
      simp only [kept, if_true, List.map_cons, List.sum_cons] at *
      omega
    · rename_i dropped
      simp only [dropped] at ih
      exact ih

theorem everyQuota (ps : List PermState) : quotasOf (fun _ => true) ps = ps.map PermState.quota := by
  simp [quotasOf]

theorem everyWrite {f : Fill} (accounted : Accounted f) : writesOf (fun _ => true) f = f.filled := by
  rw [writesOf, List.countP_true, accounted.counted]

theorem roundDealt {f ps f' ps'} (accounted : Accounted f) (round : Round f ps f' ps')
    (rounds : Nat) : f'.filled + dealt (ps'.map PermState.quota) rounds =
      f.filled + dealt (ps.map PermState.quota) (rounds + 1) := by
  have all := roundDealtTo (fun _ => true) round rounds
  rwa [everyQuota, everyQuota, everyWrite accounted, everyWrite (roundAccounted round accounted)]
    at all

/-- The searches of a round: what the table holds, and whose turn it is. -/
inductive Searches : Fill → List PermState → Fill → PermState → Prop where
  | here {f p ps} (owed : 0 < p.quota) : Searches f (p :: ps) f p
  | idle {f p ps g q} (spent : p.quota ≤ 0) (rest : Searches f ps g q) : Searches f (p :: ps) g q
  | place {f p ps slot r g q} (owed : 0 < p.quota) (pick : Picks f.table p slot r)
      (rest : Searches (f.write slot r.id) ps g q) : Searches f (p :: ps) g q

theorem searchesOwed {f ps g q} (searches : Searches f ps g q) : q ∈ ps ∧ 0 < q.quota := by
  induction searches with
  | here owed => exact ⟨List.mem_cons_self, owed⟩
  | idle _ _ ih => exact ⟨List.mem_cons_of_mem _ ih.1, ih.2⟩
  | place _ _ _ ih => exact ⟨List.mem_cons_of_mem _ ih.1, ih.2⟩

theorem searchesAccounted {f ps g q} (searches : Searches f ps g q) (accounted : Accounted f) : Accounted g := by
  induction searches with
  | here _ => exact accounted
  | idle _ _ ih => exact ih accounted
  | place _ pick _ ih => exact ih (writeAccounted accounted (pickEmpty pick) _)

/-- A search comes before the last slot that its round deals out. -/
theorem searchesFilled {f ps g q} (searches : Searches f ps g q) :
    g.filled < f.filled + dealt (ps.map PermState.quota) 1 := by
  induction searches with
  | here owed =>
    simp only [dealt, List.map_cons, List.sum_cons]
    omega
  | idle _ _ ih =>
    simp only [dealt, List.map_cons, List.sum_cons] at *
    omega
  | place owed _ _ ih =>
    simp only [dealt, Fill.write, List.map_cons, List.sum_cons] at *
    omega

theorem roundExists {f : Fill} {ps : List PermState}
    (ends : ∀ g q, Searches f ps g q → ∃ slot r, Picks g.table q slot r) : ∃ f' ps', Round f ps f' ps' := by
  induction ps generalizing f with
  | nil => exact ⟨f, [], .nil f⟩
  | cons p ps ih =>
    by_cases spent : p.quota ≤ 0
    · obtain ⟨f', ps', rest⟩ := ih fun g q searches => ends g q (.idle spent searches)
      exact ⟨f', _, .idle spent rest⟩
    · have owed : 0 < p.quota := by omega
      obtain ⟨slot, q, pick⟩ := ends f p (.here owed)
      obtain ⟨f', ps', rest⟩ := ih fun g r searches => ends g r (.place owed pick searches)
      exact ⟨f', _, .place owed pick rest⟩

/-- The searches that a loop still comes to. -/
def Meets (s : Loop) (g : Fill) (q : PermState) : Prop :=
  ∃ es t, Run RoundStep s es t ∧ t.fill.filled < maglevM ∧ Searches t.fill t.perms g q

theorem runExists {s : Loop} {rounds : Nat} (accounted : Accounted s.fill)
    (ends : ∀ g q, Meets s g q → ∃ slot r, Picks g.table q slot r)
    (whole : s.fill.filled + dealt (s.perms.map PermState.quota) rounds = maglevM) :
    ∃ es t, Run RoundStep s es t ∧ maglevM ≤ t.fill.filled := by
  induction rounds generalizing s with
  | zero =>
    have none_ := dealtNone (s.perms.map PermState.quota)
    exact ⟨[], s, .nil s, by omega⟩
  | succ rounds ih =>
    by_cases full : maglevM ≤ s.fill.filled
    · exact ⟨[], s, .nil s, full⟩
    · have below : s.fill.filled < maglevM := by omega
      obtain ⟨f', ps', round⟩ := roundExists fun g q searches => ends g q ⟨[], s, .nil s, below, searches⟩
      have step : RoundStep s () ⟨f', ps'⟩ := ⟨below, round⟩
      have dealtNext := roundDealt accounted round rounds
      obtain ⟨es, t, run, done⟩ := @ih ⟨f', ps'⟩ (roundAccounted round accounted)
        (fun g q ⟨es, t, run, short, searches⟩ => ends g q ⟨() :: es, t, .cons step run, short, searches⟩)
        (dealtNext.trans whole)
      exact ⟨() :: es, t, .cons step run, done⟩

theorem runDealtTo (keep : UInt32 → Bool) {s t : Loop} {es} (run : Run RoundStep s es t)
    (rounds : Nat) : writesOf keep t.fill + dealt (quotasOf keep t.perms) rounds =
      writesOf keep s.fill + dealt (quotasOf keep s.perms) (es.length + rounds) := by
  induction run with
  | nil s => simp
  | @cons s e t es u head tail ih =>
    rw [ih, roundDealtTo keep head.2, List.length_cons, show es.length + rounds + 1 =
      es.length + 1 + rounds by omega]

theorem startDealtTo (keep : UInt32 → Bool) {ps : List PermState} {es t}
    (run : Run RoundStep ⟨emptyFill, ps⟩ es t) :
    writesOf keep t.fill = dealt (quotasOf keep ps) es.length := by
  have counted := runDealtTo keep run 0
  have none_ : writesOf keep emptyFill = 0 := rfl
  rwa [dealtNone, none_, Nat.add_zero, Nat.add_zero, Nat.zero_add] at counted

theorem startDealt {ps : List PermState} {es t} (run : Run RoundStep ⟨emptyFill, ps⟩ es t) :
    t.fill.filled = dealt (ps.map PermState.quota) es.length := by
  rw [← everyQuota, ← startDealtTo _ run, everyWrite (runBalanced run).accounted]

theorem startDealtMore {ps : List PermState} {es t} (run : Run RoundStep ⟨emptyFill, ps⟩ es t) :
    t.fill.filled + dealt (t.perms.map PermState.quota) 1 =
      dealt (ps.map PermState.quota) (es.length + 1) := by
  have counted := runDealtTo (fun _ => true) run 1
  rw [everyQuota, everyQuota, everyWrite (runBalanced run).accounted] at counted
  exact counted.trans (Nat.zero_add _)

/-- Before its last round a build has not dealt out all slots. -/
theorem startShort {ps : List PermState} {es t} (run : Run RoundStep ⟨emptyFill, ps⟩ es t)
    {rounds : Nat} (short : rounds < es.length) :
    dealt (ps.map PermState.quota) rounds < maglevM := by
  rw [← List.take_append_drop rounds es] at run
  obtain ⟨m, first, rest⟩ := StepRun.runSplit run
  have filled := startDealt first
  rw [List.length_take, Nat.min_eq_left short.le] at filled
  generalize cut : es.drop rounds = last at rest
  cases rest with
  | nil =>
    have length := congrArg List.length cut
    rw [List.length_drop, List.length_nil] at length
    omega
  | cons head _ => exact filled ▸ head.1

/-! ### A slot everyone misses -/

def Missed (ps : List PermState) (slot : Fin maglevM) : Prop :=
  ∀ p ∈ ps, ∀ next, (atNext p next).slot ≠ slot

theorem roundMissed {f ps f' ps'} (round : Round f ps f' ps') {slot : Fin maglevM}
    (missed : Missed ps slot) : Missed ps' slot := by
  intro q member n
  obtain ⟨p, inside, ⟨next, quota, rfl⟩, _⟩ := roundFrozen round q member
  exact missed p inside n

theorem roundLeavesEmpty {f ps f' ps'} (round : Round f ps f' ps') {slot : Fin maglevM}
    (missed : Missed ps slot) (empty : f.table[slot] = 0) : f'.table[slot] = 0 := by
  induction round with
  | nil f => exact empty
  | idle spent rest ih =>
    exact ih (fun p inside => missed p (List.mem_cons_of_mem _ inside)) empty
  | place owed pick rest ih =>
    obtain ⟨next, lands⟩ := pickSlot pick
    have other : _ ≠ slot := fun same => missed _ List.mem_cons_self next (lands.trans same)
    refine ih (fun p inside => missed p (List.mem_cons_of_mem _ inside)) ?_
    rw [writeGet, if_neg other]
    exact empty

theorem missedNeverReturns {backends : List UInt32} {vnodeCounts : UInt32 → Int}
    (nonempty : backends ≠ []) (nonzero : 0 ∉ backends) {slot : Fin maglevM}
    (missed : Missed (startPerms backends vnodeCounts) slot) :
    ¬ ∃ table, Returns backends vnodeCounts table := by
  rintro ⟨table, returned⟩
  obtain ⟨es, t, run, full, _⟩ := (returnsExact nonempty table).mp returned
  have preserved : ∀ s e t, Missed s.perms slot ∧ s.fill.table[slot] = 0 → RoundStep s e t →
      Missed t.perms slot ∧ t.fill.table[slot] = 0 := fun _ _ _ held step =>
    ⟨roundMissed step.2 held.1, roundLeavesEmpty step.2 held.1 held.2⟩
  have empty := (StepRun.runInvariant preserved run
    ⟨missed, emptyAccounted.liveEmpty slot List.not_mem_nil⟩).2
  have consistent := runConsistent (startNonzero vnodeCounts nonzero) run
  exact consistent.owned _ (slotWritten consistent full slot) empty

/-! ### Termination -/

theorem hashBound (id seed : UInt32) : (maglevHash id seed % 65536).toNat < 65536 := by
  rw [UInt32.toNat_mod]
  exact Nat.mod_lt _ (by decide)

theorem skipValue (id : UInt32) (quota : Int) :
    (permState id quota).skip.toNat = (maglevHash id 0xBEEF % 65536).toNat + 1 := by
  have small := hashBound id 0xBEEF
  simp only [permState]
  rw [UInt32.toNat_add]
  exact Nat.mod_eq_of_lt (by rw [UInt32.toNat_one]; omega)

theorem skipBlind (id : UInt32) (quota : Int) :
    (permState id quota).skip = 65536 ↔ maglevHash id 0xBEEF % 65536 = 65535 := by
  have value := skipValue id quota
  rw [← UInt32.toNat_inj, ← UInt32.toNat_inj, value]
  simp

variable {backends : List UInt32} {vnodeCounts : UInt32 → Int}

theorem permStepping (id : UInt32) (quota : Int) : Stepping (permState id quota) where
  step := by rw [skipValue]; omega
  bound := by
    have small := hashBound id 0xBEEF
    rw [skipValue]
    omega
  offset := by
    simp only [permState, UInt32.toNat_mod]
    exact Nat.le_of_lt_succ (Nat.mod_lt _ (by decide))

theorem roundOwing {f ps f' ps'} (round : Round f ps f' ps') : ∀ q ∈ ps', 0 < q.quota →
    ∃ p ∈ ps, (∃ next quota, q = { p with next := next, quota := quota }) ∧ p.quota = q.quota + 1 := by
  induction round with
  | nil f => simp
  | @idle f p ps f' ps' spent rest ih =>
    intro q member owed
    rcases List.mem_cons.mp member with rfl | tail
    · omega
    · obtain ⟨origin, inside, shape⟩ := ih q tail owed
      exact ⟨origin, List.mem_cons_of_mem _ inside, shape⟩
  | @place f p ps slot q f' ps' owed pick rest ih =>
    intro r member left
    obtain ⟨next, rfl⟩ := pickState pick
    rcases List.mem_cons.mp member with rfl | tail
    · exact ⟨p, List.mem_cons_self, ⟨next, p.quota - 1, rfl⟩, by dsimp only; omega⟩
    · obtain ⟨origin, inside, shape⟩ := ih r tail left
      exact ⟨origin, List.mem_cons_of_mem _ inside, shape⟩

/-- A search that the build comes to. -/
abbrev ComesTo (backends : List UInt32) (vnodeCounts : UInt32 → Int) : Fill → PermState → Prop :=
  Meets (start backends vnodeCounts)

/-- The backend whose turn it is has had one slot in each round before. -/
structure Owing (ps : List PermState) (rounds : Nat) (q : PermState) : Prop where
  owed : 0 < q.quota
  origin : ∃ p ∈ ps, p.id = q.id ∧ p.offset = q.offset ∧ p.skip = q.skip ∧ p.quota = q.quota + rounds

theorem runOwing {ps : List PermState} {es t} (run : Run RoundStep ⟨emptyFill, ps⟩ es t) :
    ∀ q ∈ t.perms, 0 < q.quota → Owing ps es.length q := by
  have preserved : ∀ (es : List Unit) (s : Loop) (e : Unit) (t : Loop),
      (∀ q ∈ s.perms, 0 < q.quota → Owing ps es.length q) → RoundStep s e t →
      ∀ q ∈ t.perms, 0 < q.quota → Owing ps (es ++ [e]).length q := by
    intro es s e t held step q member owed
    obtain ⟨p, inside, ⟨next, quota, rfl⟩, less⟩ := roundOwing step.2 q member owed
    dsimp only at owed less
    obtain ⟨o, origin, sameId, offset, skip, more⟩ := (held p inside (by omega)).origin
    refine ⟨owed, o, origin, sameId, offset, skip, ?_⟩
    rw [List.length_append, List.length_singleton]
    push_cast
    omega
  have first : ∀ q ∈ ps, 0 < q.quota → Owing ps 0 q := fun q member owed =>
    ⟨owed, q, member, rfl, rfl, rfl, (Int.add_zero _).symm⟩
  simpa using StepRun.runTrace preserved run [] first

theorem comesOrigin {g : Fill} {q : PermState} (comes : ComesTo backends vnodeCounts g q) :
    ∃ id quota, (id, quota) ∈ backends.zip (quotas backends vnodeCounts) ∧ 0 < quota ∧
      (permState id quota).offset = q.offset ∧ (permState id quota).skip = q.skip ∧ Accounted g ∧
      g.filled < dealt (quotas backends vnodeCounts) quota.toNat := by
  obtain ⟨es, t, run, _, searches⟩ := comes
  obtain ⟨inside, owed⟩ := searchesOwed searches
  obtain ⟨p, origin, _, offset, skip, had⟩ := (runOwing run q inside owed).origin
  rw [startPermsZip] at origin
  obtain ⟨⟨id, quota⟩, member, rfl⟩ := List.mem_map.mp origin
  have had : quota = q.quota + es.length := had
  have filled := searchesFilled searches
  have more := startDealtMore run
  rw [startQuotas] at more
  have later := dealtMono (quotas backends vnodeCounts) (show es.length + 1 ≤ quota.toNat by omega)
  exact ⟨id, quota, member, by omega, offset, skip,
    searchesAccounted searches (runBalanced run).accounted, by omega⟩

theorem comesStepping {g : Fill} {q : PermState} (comes : ComesTo backends vnodeCounts g q) : Stepping q := by
  obtain ⟨id, quota, _, _, offset, skip, _, _⟩ := comesOrigin comes
  obtain ⟨step, bound, start⟩ := permStepping id quota
  exact ⟨skip ▸ step, skip ▸ bound, offset ▸ start⟩

theorem comesEmpty {rounds : Nat} (whole : dealt (quotas backends vnodeCounts) rounds = maglevM) {g : Fill}
    {q : PermState} (comes : ComesTo backends vnodeCounts g q) : ∃ slot : Fin maglevM, g.table[slot] = 0 := by
  obtain ⟨es, t, run, below, searches⟩ := comes
  have filled := searchesFilled searches
  have more := startDealtMore run
  have counted := startDealt run
  rw [startQuotas] at more counted
  -- the table is not full before this round, so this round is one of the whole ones
  have early : es.length < rounds := by
    by_contra late
    have all := dealtMono (quotas backends vnodeCounts) (not_lt.mp late)
    omega
  have within := dealtMono (quotas backends vnodeCounts) (show es.length + 1 ≤ rounds by omega)
  exact emptySlot (searchesAccounted searches (runBalanced run).accounted) (by omega)

/-- The shares come out in whole rounds, and no backend whose sequence misses a slot comes
to a search when no other slot is empty. -/
structure Buildable (backends : List UInt32) (vnodeCounts : UInt32 → Int) : Prop where
  whole : ∃ rounds, dealt (quotas backends vnodeCounts) rounds = maglevM
  beside : ∀ g q, ComesTo backends vnodeCounts g q → q.skip = 65536 →
    ∃ slot : Fin maglevM, g.table[slot] = 0 ∧ slot ≠ blindSlot q

def SearchesEnd (backends : List UInt32) (vnodeCounts : UInt32 → Int) : Prop :=
  ∀ g q, ComesTo backends vnodeCounts g q → (∃ slot : Fin maglevM, g.table[slot] = 0) →
    ∃ slot r, Picks g.table q slot r

theorem buildablePicks (buildable : Buildable backends vnodeCounts) {g : Fill} {q : PermState}
    (comes : ComesTo backends vnodeCounts g q) : ∃ slot r, Picks g.table q slot r := by
  obtain ⟨rounds, whole⟩ := buildable.whole
  refine (picksExact (comesStepping comes) g.table).mpr ?_
  by_cases skip : q.skip = 65536
  · obtain ⟨slot, empty, other⟩ := buildable.beside g q comes skip
    exact ⟨slot, empty, fun _ => other⟩
  · obtain ⟨slot, empty⟩ := comesEmpty whole comes
    exact ⟨slot, empty, fun same => absurd same skip⟩

theorem buildableReturns (nonempty : backends ≠ []) (buildable : Buildable backends vnodeCounts) :
    ∃ table, Returns backends vnodeCounts table := by
  obtain ⟨rounds, whole⟩ := buildable.whole
  obtain ⟨es, t, run, full⟩ := @runExists (start backends vnodeCounts) rounds emptyAccounted
    (fun g q comes => buildablePicks buildable comes) (by simp only [start, startQuotas, whole]; rfl)
  exact ⟨_, (returnsExact nonempty _).mpr ⟨es, t, run, full, rfl⟩⟩

theorem returnsWhole (nonempty : backends ≠ []) (nonzero : 0 ∉ backends) {table : MaglevTable}
    (returned : Returns backends vnodeCounts table) :
    ∃ rounds, dealt (quotas backends vnodeCounts) rounds = maglevM := by
  obtain ⟨es, t, run, full, _⟩ := (returnsExact nonempty table).mp returned
  have le := filledLe (runConsistent (startNonzero vnodeCounts nonzero) run)
  have counted := startDealt run
  rw [startQuotas] at counted
  exact ⟨es.length, by omega⟩

/-- The build returns, and every search it comes to ends whenever there is an empty slot. -/
theorem terminatesExact (nonempty : backends ≠ []) (nonzero : 0 ∉ backends) :
    ((∃ table, Returns backends vnodeCounts table) ∧ SearchesEnd backends vnodeCounts) ↔
      Buildable backends vnodeCounts := by
  constructor
  · rintro ⟨⟨table, returned⟩, searches⟩
    obtain ⟨rounds, whole⟩ := returnsWhole nonempty nonzero returned
    refine ⟨⟨rounds, whole⟩, fun g q comes skip => ?_⟩
    obtain ⟨slot, empty, other⟩ :=
      (picksExact (comesStepping comes) g.table).mp (searches g q comes (comesEmpty whole comes))
    exact ⟨slot, empty, other skip⟩
  · intro buildable
    exact ⟨buildableReturns nonempty buildable, fun g q comes _ => buildablePicks buildable comes⟩

/-! ### Backends that cannot come last -/

theorem otherSlot {f : Fill} (accounted : Accounted f) (room : f.filled + 1 < maglevM) (slot : Fin maglevM) :
    ∃ j : Fin maglevM, f.table[j] = 0 ∧ j ≠ slot := by
  have short := liveLe f
  have counted := accounted.counted
  by_cases taken : slot ∈ (live f).map Prod.fst
  · obtain ⟨j, absent⟩ := missingSlot accounted.liveOnce (by rw [List.length_map]; omega)
    exact ⟨j, accounted.liveEmpty j absent, fun same => absent (same ▸ taken)⟩
  · obtain ⟨j, absent⟩ := missingSlot (List.nodup_cons.mpr ⟨taken, accounted.liveOnce⟩)
      (by rw [List.length_cons, List.length_map]; omega)
    obtain ⟨other, fresh⟩ := not_or.mp (List.mem_cons.not.mp absent)
    exact ⟨j, accounted.liveEmpty j fresh, other⟩

/-- A backend whose sequence misses a slot is harmless when it has taken its share before the last slot
but one is dealt out, as when another share is larger than its own. -/
structure Dealable (backends : List UInt32) (vnodeCounts : UInt32 → Int) : Prop where
  whole : ∃ rounds, dealt (quotas backends vnodeCounts) rounds = maglevM
  early : ∀ id quota, (id, quota) ∈ backends.zip (quotas backends vnodeCounts) → 0 < quota →
    maglevHash id 0xBEEF % 65536 = 65535 → dealt (quotas backends vnodeCounts) quota.toNat < maglevM

theorem dealableBuildable (dealable : Dealable backends vnodeCounts) : Buildable backends vnodeCounts := by
  refine ⟨dealable.whole, fun g q comes skip => ?_⟩
  obtain ⟨id, quota, member, owed, _, same, accounted, filled⟩ := comesOrigin comes
  have short := dealable.early id quota member owed ((skipBlind id quota).mp (same.trans skip))
  exact otherSlot accounted (by omega) _

theorem dealableReturns (nonempty : backends ≠ [])
    (dealable : Dealable backends vnodeCounts) : ∃ table, Returns backends vnodeCounts table :=
  buildableReturns nonempty (dealableBuildable dealable)

theorem dealtFitting (fitting : Fitting backends vnodeCounts) :
    dealt (quotas backends vnodeCounts) maglevM = maglevM := by
  have sum := Apportion.sharesSum maglevM (natWeightsPos fitting)
  rw [quotasFitting fitting, dealt, List.map_map]
  have whole : ∀ q ∈ Apportion.shares maglevM (natWeights backends vnodeCounts),
      ((fun q : Int => min q.toNat maglevM) ∘ (Nat.cast : Nat → Int)) q = q := by
    intro q member
    have le := memLeSum member
    simp only [Function.comp_apply, Int.toNat_natCast]
    omega
  rw [List.map_congr_left whole, List.map_id', sum]

theorem dealableFitting (fitting : Fitting backends vnodeCounts)
    (skips : ∀ id ∈ backends, maglevHash id 0xBEEF % 65536 ≠ 65535) :
    Dealable backends vnodeCounts where
  whole := ⟨maglevM, dealtFitting fitting⟩
  early := fun id _ member _ blind => absurd blind (skips id (List.of_mem_zip member).1)

theorem twoBackends : Sane [1, 2] fun _ => 1 :=
  ⟨⟨by decide, by decide, fun _ _ => by decide, by decide⟩, by decide⟩

theorem twoSkips {id : UInt32} (member : id ∈ [1, 2]) : maglevHash id 0xBEEF % 65536 ≠ 65535 := by
  rcases List.mem_cons.mp member with rfl | last
  · decide
  · rw [List.mem_singleton.mp last]
    decide

/-- Backend 17844 misses a slot; beside a heavier backend its share is dealt out early. -/
def beside (id : UInt32) : Int := if id = 17844 then 1 else 1000

theorem besideShares : quotas [17844, 1] beside = [66, 65471] := by decide +kernel

theorem terminatesBeside : (∃ table, Returns [17844, 1] beside table) ∧ SearchesEnd [17844, 1] beside := by
  refine (terminatesExact (by decide) (by decide)).mpr (dealableBuildable ⟨⟨65471, ?_⟩, ?_⟩)
  · rw [besideShares]
    rfl
  · intro id quota member _ blind
    rw [besideShares] at member ⊢
    rcases List.mem_cons.mp member with same | last
    · cases same
      decide
    · cases List.mem_singleton.mp last
      exact absurd blind (by decide)

theorem blindBackendHangs : ¬ ∃ table, Returns [17844] (fun _ => 1) table := by
  have skip : (permState 17844 0).skip = 65536 := (skipBlind 17844 0).mpr (by decide)
  refine @missedNeverReturns _ _ (by decide) (by decide) (blindSlot (permState 17844 0)) ?_
  intro p member next
  rw [startPermsZip] at member
  obtain ⟨⟨id, quota⟩, inside, rfl⟩ := List.mem_map.mp member
  have same : id = 17844 := List.mem_singleton.mp (List.of_mem_zip inside).1
  subst same
  exact @missesBlindSlot (permState 17844 quota) skip next

end OmegaLb.MaglevTermination
