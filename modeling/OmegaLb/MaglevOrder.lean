import OmegaLb.MaglevProportion
import Mathlib.Data.List.Perm.Basic

/-! Rebuilding from another iteration order. A round in which no two searches meet
gives the same table in every order, so a whole build does when the remainder is
shared evenly; where two searches first meet, the order decides who gets the slot. -/
namespace OmegaLb.MaglevOrder
open Maglev MaglevShares MaglevFill
open Apportion (leftover)
open StepRun (Run Guarded)

/-! ### A search beside another backend's write -/

theorem pickKept {table : MaglevTable} {p q : PermState} {slot x : Fin maglevM} {id : UInt32}
    (pick : Picks table p slot q) (empty : table[x] = 0) (other : x ≠ slot) :
    Picks (table.set x id) p slot q := by
  obtain ⟨fuel, found⟩ := pick
  refine ⟨fuel, ?_⟩
  induction fuel generalizing p with
  | zero => simp [search] at found
  | succ fuel ih =>
    simp only [search] at *
    split at found
    · rename_i here
      cases Option.some.inj found
      rw [setGet, if_neg other]
      exact if_pos here
    · rename_i taken
      have elsewhere : x ≠ p.slot := fun same => by
        subst same
        exact taken empty
      rw [setGet, if_neg elsewhere, if_neg taken]
      exact ih found

theorem pickBack {table : MaglevTable} {p q : PermState} {slot x : Fin maglevM} {id : UInt32}
    (pick : Picks (table.set x id) p slot q) (empty : table[x] = 0) :
    Picks table p slot q ∨ ∃ r, Picks table p x r := by
  obtain ⟨fuel, found⟩ := pick
  induction fuel generalizing p with
  | zero => simp [search] at found
  | succ fuel ih =>
    simp only [search] at found
    by_cases here : x = p.slot
    · subst here
      exact .inr ⟨_, 1, if_pos empty⟩
    · rw [setGet, if_neg here] at found
      split at found
      · rename_i free
        cases Option.some.inj found
        exact .inl ⟨1, if_pos free⟩
      · rename_i taken
        have further : ∀ y r, Picks table p.advance y r → Picks table p y r := by
          rintro y r ⟨n, ok⟩
          exact ⟨n + 1, by rw [search, if_neg taken]; exact ok⟩
        rcases ih found with same | ⟨r, meets⟩
        · exact .inl (further _ _ same)
        · exact .inr ⟨r, further _ _ meets⟩

/-! ### Rounds without a meeting -/

def Apart (table : MaglevTable) (p q : PermState) : Prop :=
  0 < p.quota → 0 < q.quota → ∀ slot p' q', Picks table p slot p' → ¬ Picks table q slot q'

theorem apartSymm {table : MaglevTable} {p q : PermState} (apart : Apart table p q) :
    Apart table q p :=
  fun owedQ owedP slot q' p' pickQ pickP => apart owedP owedQ slot p' q' pickP pickQ

def After (table : MaglevTable) (p p' : PermState) : Prop :=
  (p.quota ≤ 0 ∧ p' = p) ∨
    (0 < p.quota ∧ ∃ slot q, Picks table p slot q ∧ p' = { q with quota := q.quota - 1 })

theorem afterUnique {table : MaglevTable} {p a b : PermState} (left : After table p a)
    (right : After table p b) : a = b := by
  rcases left with ⟨spent, rfl⟩ | ⟨owed, slot, q, pick, rfl⟩
  · rcases right with ⟨_, rfl⟩ | ⟨owed, _⟩
    · rfl
    · omega
  · rcases right with ⟨spent, _⟩ | ⟨_, slot', q', pick', rfl⟩
    · omega
    · rw [(pickUnique pick pick').2]

structure Together (f : Fill) (ps : List PermState) (g : Fill) (ps' : List PermState) : Prop where
  picks : ∀ p ∈ ps, 0 < p.quota → ∃ slot q, Picks f.table p slot q
  taken : ∀ p ∈ ps, 0 < p.quota → ∀ slot q, Picks f.table p slot q → g.table[slot] = p.id
  kept : ∀ slot, (∀ p ∈ ps, 0 < p.quota → ∀ q, ¬ Picks f.table p slot q) →
    g.table[slot] = f.table[slot]
  filled : g.filled = f.filled + ps.countP fun p => decide (0 < p.quota)
  perms : List.Forall₂ (After f.table) ps ps'

theorem picksPast {table : MaglevTable} {p q : PermState} {x : Fin maglevM} {r : PermState}
    {id : UInt32} (apart : Apart table p q) (owedP : 0 < p.quota) (owedQ : 0 < q.quota)
    (pick : Picks table p x r) (slot : Fin maglevM) (q' : PermState) :
    Picks (table.set x id) q slot q' ↔ Picks table q slot q' := by
  have empty := pickEmpty pick
  constructor
  · intro after
    rcases pickBack after empty with same | ⟨_, meets⟩
    · exact same
    · exact absurd meets (apart owedP owedQ x _ _ pick)
  · intro before
    refine pickKept before empty fun same => ?_
    subst same
    exact apart owedP owedQ _ _ _ pick before

theorem afterPast {table : MaglevTable} {p q a : PermState} {x : Fin maglevM} {r : PermState}
    {id : UInt32} (apart : Apart table p q) (owedP : 0 < p.quota) (pick : Picks table p x r) :
    After (table.set x id) q a ↔ After table q a := by
  unfold After
  by_cases owedQ : 0 < q.quota
  · simp only [picksPast apart owedP owedQ pick]
  · have spent : q.quota ≤ 0 := by omega
    simp [owedQ, spent]

theorem apartPast {table : MaglevTable} {p : PermState} {ps : List PermState} {x : Fin maglevM}
    {r : PermState} {id : UInt32} (apart : ∀ q ∈ ps, Apart table p q) (owed : 0 < p.quota)
    (pick : Picks table p x r) (rest : ps.Pairwise (Apart table)) :
    ps.Pairwise (Apart (table.set x id)) := by
  refine rest.imp_of_mem fun {a b} memA memB pair owedA owedB slot a' b' pickA pickB => ?_
  rw [picksPast (apart a memA) owed owedA pick] at pickA
  rw [picksPast (apart b memB) owed owedB pick] at pickB
  exact pair owedA owedB slot a' b' pickA pickB

theorem forall2Imp {α β : Type} {R S : α → β → Prop} {l : List α} {l' : List β}
    (all : List.Forall₂ R l l') (imp : ∀ a ∈ l, ∀ b, R a b → S a b) : List.Forall₂ S l l' := by
  induction all with
  | nil => exact .nil
  | cons head _ ih =>
    exact .cons (imp _ List.mem_cons_self _ head)
      (ih fun a member => imp a (List.mem_cons_of_mem _ member))

theorem togetherIdle {f g : Fill} {p : PermState} {ps ps' : List PermState} (spent : p.quota ≤ 0)
    (tail : Together f ps g ps') : Together f (p :: ps) g (p :: ps') := by
  have notOwed : ¬ 0 < p.quota := by omega
  refine ⟨?_, ?_, ?_, ?_, .cons (.inl ⟨spent, rfl⟩) tail.perms⟩
  · intro r member owed
    rcases List.mem_cons.mp member with rfl | inside
    · exact absurd owed notOwed
    · exact tail.picks r inside owed
  · intro r member owed
    rcases List.mem_cons.mp member with rfl | inside
    · exact absurd owed notOwed
    · exact tail.taken r inside owed
  · intro slot free
    exact tail.kept slot fun r inside => free r (List.mem_cons_of_mem p inside)
  · rw [tail.filled, List.countP_cons_of_neg (by simpa using spent)]

theorem togetherPlace {f g : Fill} {p q : PermState} {ps ps' : List PermState} {slot : Fin maglevM}
    (owed : 0 < p.quota) (pick : Picks f.table p slot q) (head : ∀ r ∈ ps, Apart f.table p r)
    (tail : Together (f.write slot q.id) ps g ps') :
    Together f (p :: ps) g ({ q with quota := q.quota - 1 } :: ps') := by
  have past : ∀ r ∈ ps, 0 < r.quota → ∀ x r', Picks (f.write slot q.id).table r x r' ↔
      Picks f.table r x r' := fun r inside owedR => picksPast (head r inside) owed owedR pick
  have sameId : q.id = p.id := by
    obtain ⟨next, rfl⟩ := pickState pick
    rfl
  refine ⟨?_, ?_, ?_, ?_, .cons (.inr ⟨owed, slot, q, pick, rfl⟩) ?_⟩
  · intro r member owedR
    rcases List.mem_cons.mp member with rfl | inside
    · exact ⟨slot, q, pick⟩
    · obtain ⟨x, r', found⟩ := tail.picks r inside owedR
      exact ⟨x, r', (past r inside owedR x r').mp found⟩
  · intro r member owedR x r' found
    rcases List.mem_cons.mp member with rfl | inside
    · -- nobody behind the head picks its slot, so its write is the last one there
      obtain ⟨rfl, rfl⟩ := pickUnique pick found
      have free := tail.kept slot fun b inside owedB b' pickB =>
        head b inside owed owedB slot _ _ pick ((past b inside owedB slot b').mp pickB)
      rw [free, writeGet, if_pos rfl, sameId]
    · exact tail.taken r inside owedR x r' ((past r inside owedR x r').mpr found)
  · intro x free
    have other : slot ≠ x := fun same => by
      subst same
      exact free p List.mem_cons_self owed _ pick
    have behind := tail.kept x fun b inside owedB b' pickB =>
      free b (List.mem_cons_of_mem p inside) owedB b' ((past b inside owedB x b').mp pickB)
    rw [behind, writeGet, if_neg other]
  · rw [tail.filled, List.countP_cons_of_pos (by simpa using owed)]
    simp only [Fill.write]
    omega
  · exact forall2Imp tail.perms fun r inside r' after =>
      (afterPast (head r inside) owed pick).mp after

theorem roundTogether {f g : Fill} {ps ps' : List PermState} (round : Round f ps g ps')
    (apart : ps.Pairwise (Apart f.table)) : Together f ps g ps' := by
  induction round with
  | nil f =>
    exact ⟨by simp, by simp, fun _ _ => rfl, rfl, .nil⟩
  | idle spent rest ih =>
    exact togetherIdle spent (ih (List.pairwise_cons.mp apart).2)
  | place owed pick rest ih =>
    obtain ⟨head, later⟩ := List.pairwise_cons.mp apart
    exact togetherPlace owed pick head (ih (apartPast head owed pick later))

theorem togetherRound {f : Fill} {ps : List PermState} (apart : ps.Pairwise (Apart f.table))
    (picks : ∀ p ∈ ps, 0 < p.quota → ∃ slot q, Picks f.table p slot q) :
    ∃ g ps', Round f ps g ps' := by
  induction ps generalizing f with
  | nil => exact ⟨f, [], .nil f⟩
  | cons p ps ih =>
    obtain ⟨head, later⟩ := List.pairwise_cons.mp apart
    by_cases owed : 0 < p.quota
    · obtain ⟨slot, q, pick⟩ := picks p List.mem_cons_self owed
      obtain ⟨g, ps', rest⟩ := @ih (f.write slot q.id) (apartPast head owed pick later)
        fun r inside owedR => by
          obtain ⟨x, r', found⟩ := picks r (List.mem_cons_of_mem p inside) owedR
          exact ⟨x, r', (picksPast (head r inside) owed owedR pick x r').mpr found⟩
      exact ⟨g, _, .place owed pick rest⟩
    · obtain ⟨g, ps', rest⟩ := ih later fun r inside => picks r (List.mem_cons_of_mem p inside)
      exact ⟨g, _, .idle (by omega) rest⟩

structure Alike (s t : Loop) : Prop where
  table : t.fill.table = s.fill.table
  filled : t.fill.filled = s.fill.filled
  perms : s.perms.Perm t.perms

theorem alikeSymm {s t : Loop} (alike : Alike s t) : Alike t s :=
  ⟨alike.table.symm, alike.filled.symm, alike.perms.symm⟩

def NoMeeting (s : Loop) : Prop := s.perms.Pairwise (Apart s.fill.table)

theorem noMeetingAlike {s t : Loop} (alike : Alike s t) (apart : NoMeeting s) : NoMeeting t := by
  unfold NoMeeting at *
  rw [alike.table]
  exact (alike.perms.pairwise_iff apartSymm).mp apart

theorem togetherAlike {s t s' t' : Loop} (alike : Alike s t)
    (left : Together s.fill s.perms s'.fill s'.perms)
    (right : Together t.fill t.perms t'.fill t'.perms) : Alike s' t' := by
  have members : ∀ p, p ∈ s.perms ↔ p ∈ t.perms := fun p => alike.perms.mem_iff
  refine ⟨Vector.ext fun i inside => ?_, ?_, ?_⟩
  · let slot : Fin maglevM := ⟨i, inside⟩
    show t'.fill.table[slot] = s'.fill.table[slot]
    by_cases picked : ∃ p ∈ s.perms, 0 < p.quota ∧ ∃ q, Picks s.fill.table p slot q
    · obtain ⟨p, member, owed, q, pick⟩ := picked
      rw [left.taken p member owed slot q pick]
      exact right.taken p ((members p).mp member) owed slot q (by rw [alike.table]; exact pick)
    · have free : ∀ p ∈ s.perms, 0 < p.quota → ∀ q, ¬ Picks s.fill.table p slot q :=
        fun p member owed q pick => picked ⟨p, member, owed, q, pick⟩
      have keptLeft := left.kept slot free
      have keptRight := right.kept slot fun p member owed q => by
        rw [alike.table]
        exact free p ((members p).mpr member) owed q
      rw [keptLeft, keptRight, alike.table]
  · rw [left.filled, right.filled, alike.filled, alike.perms.countP_eq]
  · have same := right.perms
    rw [alike.table] at same
    have unique : Relator.RightUnique (After s.fill.table) := fun _ _ _ => afterUnique
    exact List.rel_perm_imp unique left.perms same alike.perms

theorem stepAlike {s t s' : Loop} (alike : Alike s t) (apart : NoMeeting s)
    (step : RoundStep s () s') : ∃ t', RoundStep t () t' ∧ Alike s' t' := by
  have left := roundTogether step.2 apart
  have apartT := noMeetingAlike alike apart
  obtain ⟨g, ps, round⟩ := togetherRound apartT fun p member owed => by
    obtain ⟨slot, q, pick⟩ := left.picks p (alike.perms.mem_iff.mpr member) owed
    exact ⟨slot, q, by rw [alike.table]; exact pick⟩
  have below : t.fill.filled < maglevM := by
    rw [alike.filled]
    exact step.1
  exact ⟨⟨g, ps⟩, ⟨below, round⟩, togetherAlike alike left (roundTogether round apartT)⟩

theorem runAlike {s t t' : Loop} {es} (alike : Alike s t)
    (apart : ∀ fs u, Run RoundStep s fs u → u.fill.filled < maglevM → NoMeeting u)
    (run : Run RoundStep t es t') : ∃ s', Run RoundStep s es s' ∧ Alike s' t' := by
  induction run generalizing s with
  | nil t => exact ⟨s, .nil s, alike⟩
  | @cons t e m es u head tail ih =>
    have apartS := apart [] s (.nil s) (by rw [← alike.filled]; exact head.1)
    obtain ⟨s1, step, next⟩ := stepAlike (alikeSymm alike) (noMeetingAlike alike apartS) head
    obtain ⟨s', rest, last⟩ := ih (alikeSymm next) fun fs u later => apart (() :: fs) u (.cons step later)
    exact ⟨s', .cons step rest, last⟩

/-! ### Starting states -/

variable {backends other : List UInt32} {vnodeCounts : UInt32 → Int}

theorem weightsPerm (perm : backends.Perm other) (vnodeCounts : UInt32 → Int) :
    weights other vnodeCounts = weights backends vnodeCounts := by
  have total : totalWeight other vnodeCounts = totalWeight backends vnodeCounts := by
    rw [totalWeightWrap, totalWeightWrap, (perm.map vnodeCounts).sum_eq]
  simp only [weights, total, perm.mem_iff, perm.length_eq]

theorem remainderPerm (perm : backends.Perm other) (vnodeCounts : UInt32 → Int) :
    remainder (scaledQuotas other vnodeCounts) = remainder (scaledQuotas backends vnodeCounts) := by
  have same : (scaledQuotas other vnodeCounts).Perm (scaledQuotas backends vnodeCounts) := by
    simp only [scaledQuotas, weightsPerm perm]
    exact (perm.map _).symm
  rw [remainderWrap, remainderWrap, same.sum_eq]

def EvenRemainder (backends : List UInt32) (vnodeCounts : UInt32 → Int) : Prop :=
  backends.length ∣ (remainder (scaledQuotas backends vnodeCounts)).toNat

theorem startPermsEven {turns : Nat}
    (even : (remainder (scaledQuotas backends vnodeCounts)).toNat = turns * backends.length) :
    startPerms backends vnodeCounts = backends.map fun id => permState id
      (bump^[turns] (scaledQuota (weights backends vnodeCounts).2
        ((weights backends vnodeCounts).1 id))) := by
  have shape : scaledQuotas backends vnodeCounts = backends.map fun id =>
      scaledQuota (weights backends vnodeCounts).2 ((weights backends vnodeCounts).1 id) := rfl
  have length : (scaledQuotas backends vnodeCounts).length = backends.length := by
    simp [scaledQuotas]
  have whole := distributeWhole turns (scaledQuotas backends vnodeCounts)
  rw [length, ← even] at whole
  unfold startPerms quotas
  dsimp only
  rw [whole, shape, List.map_map, List.zipWith_map_right, List.zipWith_self]
  rfl

theorem startAlike (perm : backends.Perm other) (even : EvenRemainder backends vnodeCounts) :
    Alike (start backends vnodeCounts) (start other vnodeCounts) := by
  obtain ⟨turns, even⟩ := even
  rw [Nat.mul_comm] at even
  have evenOther : (remainder (scaledQuotas other vnodeCounts)).toNat = turns * other.length := by
    rw [remainderPerm perm, even, perm.length_eq]
  refine ⟨rfl, rfl, ?_⟩
  simp only [start, startPermsEven even, startPermsEven evenOther, weightsPerm perm]
  exact perm.map _

/-! ### Stability -/

def Stable (backends : List UInt32) (vnodeCounts : UInt32 → Int) : Prop :=
  ∀ other, backends.Perm other → ∀ table,
    Returns other vnodeCounts table ↔ Returns backends vnodeCounts table

structure OrderFree (backends : List UInt32) (vnodeCounts : UInt32 → Int) : Prop where
  even : EvenRemainder backends vnodeCounts
  apart : ∀ es s, Run RoundStep (start backends vnodeCounts) es s → s.fill.filled < maglevM →
    NoMeeting s

theorem orderFreePerm (perm : backends.Perm other) (free : OrderFree backends vnodeCounts) :
    OrderFree other vnodeCounts where
  even := by
    unfold EvenRemainder
    rw [remainderPerm perm, ← perm.length_eq]
    exact free.even
  apart := by
    intro es t run below
    obtain ⟨s, origin, alike⟩ := runAlike (startAlike perm free.even) free.apart run
    exact noMeetingAlike alike (free.apart es s origin (by rw [← alike.filled]; exact below))

theorem returnsPerm (nonempty : backends ≠ []) (perm : backends.Perm other)
    (free : OrderFree backends vnodeCounts) {table : MaglevTable}
    (returned : Returns other vnodeCounts table) : Returns backends vnodeCounts table := by
  have nonemptyOther : other ≠ [] := fun empty => nonempty (List.Perm.eq_nil (empty ▸ perm))
  obtain ⟨es, t, run, full, same⟩ := (returnsExact nonemptyOther table).mp returned
  obtain ⟨s, origin, alike⟩ := runAlike (startAlike perm free.even) free.apart run
  refine (returnsExact nonempty table).mpr ⟨es, s, origin, ?_, ?_⟩
  · rw [← alike.filled]
    exact full
  · rw [← alike.table, same]

theorem stableOf (free : OrderFree backends vnodeCounts) : Stable backends vnodeCounts := by
  intro other perm table
  by_cases empty : backends = []
  · subst empty
    rw [List.Perm.eq_nil perm.symm]
  · have nonemptyOther : other ≠ [] := fun none_ => empty (List.Perm.eq_nil (none_ ▸ perm))
    exact ⟨returnsPerm empty perm free, returnsPerm nonemptyOther perm.symm (orderFreePerm perm free)⟩

/-! ### What a stable build gives away -/

theorem returnsFill {table : MaglevTable} (returned : Returns backends vnodeCounts table) :
    ∃ fuel g, maglevFill fuel backends vnodeCounts = some g ∧ g.table = table := by
  obtain ⟨fuel, built⟩ := returned
  obtain ⟨g, filled, same⟩ := Option.map_eq_some_iff.mp built
  exact ⟨fuel, g, filled, same⟩

theorem evenOf (sane : Sane backends vnodeCounts) {table : MaglevTable}
    (returned : Returns backends vnodeCounts table) (stable : Stable backends vnodeCounts) :
    EvenRemainder backends vnodeCounts := by
  have perm : backends.Perm backends.reverse := (List.reverse_perm backends).symm
  have few := Apportion.leftoverLt maglevM (natWeightsPos sane.toFitting)
  have length : (natWeights backends vnodeCounts).length = backends.length := by simp [natWeights]
  have positive : 0 < backends.length := List.length_pos_iff.mpr sane.nonempty
  obtain ⟨fuel, g, filled, rfl⟩ := returnsFill returned
  obtain ⟨fuel', g', filled', same⟩ := returnsFill ((stable _ perm _).mpr returned)
  have inside : backends.length - 1 < backends.reverse.length := by
    rw [List.length_reverse]
    omega
  have first := MaglevProportion.heldExact sane filled 0 positive
  have last := MaglevProportion.heldExact (sanePerm perm sane) filled' (backends.length - 1) inside
  have mirror : backends.reverse[backends.length - 1] = backends[0] := by
    rw [List.getElem_reverse]
    congr 1
    omega
  have late : ¬ backends.length - 1 < leftover maglevM (natWeights backends vnodeCounts) := by omega
  rw [mirror, same, natWeightPerm perm, ← (natWeightsPerm perm).sum_eq,
    Apportion.leftoverPerm maglevM (natWeightsPerm perm), first, if_neg late] at last
  unfold EvenRemainder
  rw [remainderFitting sane.toFitting]
  split at last
  · omega
  · rename_i none_
    rw [Nat.eq_zero_of_not_pos none_]
    exact Nat.dvd_zero _

/-! ### The first meeting decides a slot -/

theorem roundUnique {f f1 f2 : Fill} {ps ps1 ps2 : List PermState} (left : Round f ps f1 ps1)
    (right : Round f ps f2 ps2) : f1 = f2 ∧ ps1 = ps2 := by
  induction left generalizing f2 ps2 with
  | nil f =>
    cases right
    exact ⟨rfl, rfl⟩
  | idle spent rest ih =>
    cases right with
    | idle _ rest' =>
      obtain ⟨rfl, rfl⟩ := ih rest'
      exact ⟨rfl, rfl⟩
    | place owed _ _ => omega
  | place owed pick rest ih =>
    cases right with
    | idle spent _ => omega
    | place _ pick' rest' =>
      obtain ⟨rfl, rfl⟩ := pickUnique pick pick'
      obtain ⟨rfl, rfl⟩ := ih rest'
      exact ⟨rfl, rfl⟩

theorem stepUnique (s : Loop) (e : Unit) (t : Loop) (f : Unit) (u : Loop) (left : RoundStep s e t)
    (right : RoundStep s f u) : t = u := by
  obtain ⟨fill, perms⟩ := roundUnique left.2 right.2
  cases t
  cases u
  cases fill
  cases perms
  rfl

theorem roundKeeps {f g : Fill} {ps ps' : List PermState} (round : Round f ps g ps')
    {slot : Fin maglevM} (taken : f.table[slot] ≠ 0) : g.table[slot] = f.table[slot] := by
  induction round with
  | nil f => rfl
  | idle spent rest ih => exact ih taken
  | @place f p ps x q g ps' owed pick rest ih =>
    have other : x ≠ slot := fun same => by
      subst same
      exact taken (pickEmpty pick)
    have kept : (f.write x q.id).table[slot] = f.table[slot] := by rw [writeGet, if_neg other]
    rw [ih (by rw [kept]; exact taken), kept]

theorem runKeeps {s t : Loop} {es} (run : Run RoundStep s es t) {slot : Fin maglevM}
    (taken : s.fill.table[slot] ≠ 0) : t.fill.table[slot] = s.fill.table[slot] := by
  induction run with
  | nil s => rfl
  | cons head tail ih =>
    have kept := roundKeeps head.2 taken
    rw [ih (by rw [kept]; exact taken), kept]

theorem headWins {s t : Loop} {es} (run : Run RoundStep s es t) (below : s.fill.filled < maglevM)
    (full : maglevM ≤ t.fill.filled) {p : PermState} {ps : List PermState} (shape : s.perms = p :: ps)
    (owed : 0 < p.quota) (nonzero : p.id ≠ 0) {slot : Fin maglevM} {q : PermState}
    (pick : Picks s.fill.table p slot q) : t.fill.table[slot] = p.id := by
  cases run with
  | nil => omega
  | @cons _ _ m es _ head tail =>
    have round := head.2
    rw [shape] at round
    generalize m.perms = last at round
    cases round with
    | idle spent _ => omega
    | place _ pick' rest =>
      obtain ⟨rfl, rfl⟩ := pickUnique pick pick'
      have sameId : q.id = p.id := by
        obtain ⟨next, rfl⟩ := pickState pick
        rfl
      have first : (s.fill.write slot q.id).table[slot] = p.id := by
        rw [writeGet, if_pos rfl, sameId]
      have second := roundKeeps rest (by rw [first]; exact nonzero)
      have third := runKeeps tail (by rw [second, first]; exact nonzero)
      rw [third, second, first]

abbrev QuietStep : Loop → Unit → Loop → Prop := Guarded (fun s _ => NoMeeting s) RoundStep

theorem quietAlike {s t s' : Loop} {es} (alike : Alike s t) (run : Run QuietStep s es s') :
    ∃ t', Run RoundStep t es t' ∧ Alike s' t' := by
  induction run generalizing t with
  | nil s => exact ⟨t, .nil t, alike⟩
  | cons head tail ih =>
    obtain ⟨t1, step, next⟩ := stepAlike alike head.1 head.2
    obtain ⟨t', rest, last⟩ := ih next
    exact ⟨t', .cons step rest, last⟩

theorem quietRun {s t : Loop} {es} (run : Run QuietStep s es t) : Run RoundStep s es t :=
  StepRun.runWeaken (fun _ _ _ taken => taken.2) run

theorem pickerOwns (sane : Sane backends vnodeCounts) {table : MaglevTable}
    (returned : Returns backends vnodeCounts table) (stable : Stable backends vnodeCounts) {es}
    {s : Loop} (run : Run QuietStep (start backends vnodeCounts) es s)
    (below : s.fill.filled < maglevM) {r q : PermState} (member : r ∈ s.perms) (owed : 0 < r.quota)
    {slot : Fin maglevM} (pick : Picks s.fill.table r slot q) : table[slot] = r.id := by
  -- some order turns to the backend that picks first
  have balanced := runBalanced (quietRun run)
  have ids : s.perms.map PermState.id = backends := balanced.ids.trans (startIds _ _)
  have inside : r.id ∈ backends := ids ▸ List.mem_map.mpr ⟨r, member, rfl⟩
  have perm : backends.Perm (r.id :: backends.erase r.id) := List.perm_cons_erase inside
  have saneOther := sanePerm perm sane
  obtain ⟨t, reached, alike⟩ := quietAlike (startAlike perm (evenOf sane returned stable)) run
  have idsOther : t.perms.map PermState.id = r.id :: backends.erase r.id :=
    (runBalanced reached).ids.trans (startIds _ _)
  -- the head of the other order is r itself
  obtain ⟨h, tail, shape, sameId, _⟩ := List.map_eq_cons_iff.mp idsOther
  have headMember : h ∈ s.perms := alike.perms.mem_iff.mpr (shape ▸ List.mem_cons_self)
  have same : h = r :=
    List.inj_on_of_nodup_map (ids ▸ sane.distinct) headMember member sameId
  subst same
  obtain ⟨fs, u, whole, full, result⟩ :=
    (returnsExact saneOther.nonempty table).mp ((stable _ perm table).mpr returned)
  have stuck : ∀ e v, ¬ RoundStep u e v := fun _ _ step => absurd step.1 (by omega)
  obtain ⟨gs, rest⟩ := StepRun.runExtends stepUnique reached whole stuck
  have wins := headWins rest (by rw [alike.filled]; exact below) full shape owed
    (idsNonzero balanced.ids (startNonzero vnodeCounts sane.nonzero) h member)
    (by rw [alike.table]; exact pick)
  rwa [result] at wins

theorem quietStays (sane : Sane backends vnodeCounts) {table : MaglevTable}
    (returned : Returns backends vnodeCounts table) (stable : Stable backends vnodeCounts) {es}
    {s : Loop} (run : Run QuietStep (start backends vnodeCounts) es s)
    (below : s.fill.filled < maglevM) : NoMeeting s := by
  have ids : s.perms.map PermState.id = backends :=
    (runBalanced (quietRun run)).ids.trans (startIds _ _)
  have distinct : (s.perms.map PermState.id).Nodup := ids ▸ sane.distinct
  refine List.pairwise_iff_getElem.mpr fun i j insideI insideJ order owedI owedJ slot p q pickI pickJ => ?_
  have ownerI := pickerOwns sane returned stable run below (List.getElem_mem insideI) owedI pickI
  have ownerJ := pickerOwns sane returned stable run below (List.getElem_mem insideJ) owedJ pickJ
  have equal := List.inj_on_of_nodup_map distinct (List.getElem_mem insideI) (List.getElem_mem insideJ)
    (ownerI.symm.trans ownerJ)
  have same := (List.Nodup.getElem_inj_iff (List.Nodup.of_map _ distinct)).mp equal
  omega

theorem everyRunQuiet (sane : Sane backends vnodeCounts) {table : MaglevTable}
    (returned : Returns backends vnodeCounts table) (stable : Stable backends vnodeCounts) {es}
    {s : Loop} (run : Run RoundStep (start backends vnodeCounts) es s) :
    Run QuietStep (start backends vnodeCounts) es s := by
  induction es using List.reverseRecOn generalizing s with
  | nil =>
    cases run
    exact .nil _
  | append_singleton es e ih =>
    obtain ⟨m, before, last⟩ := StepRun.runSplit run
    cases last with
    | cons step rest =>
      cases rest
      have quiet := ih before
      exact StepRun.runSnoc quiet ⟨quietStays sane returned stable quiet step.1, step⟩

theorem orderFreeOf (sane : Sane backends vnodeCounts) {table : MaglevTable}
    (returned : Returns backends vnodeCounts table) (stable : Stable backends vnodeCounts) :
    OrderFree backends vnodeCounts where
  even := evenOf sane returned stable
  apart := fun _ _ run below =>
    quietStays sane returned stable (everyRunQuiet sane returned stable run) below

theorem stableExact (backends : List UInt32) (vnodeCounts : UInt32 → Int) :
    (OrderFree backends vnodeCounts → Stable backends vnodeCounts) ∧
      (Sane backends vnodeCounts → (∃ table, Returns backends vnodeCounts table) →
        Stable backends vnodeCounts → OrderFree backends vnodeCounts) := by
  refine ⟨stableOf, ?_⟩
  rintro sane ⟨table, returned⟩ stable
  exact orderFreeOf sane returned stable

theorem pickFirst {table : MaglevTable} {p q : PermState} {slot : Fin maglevM} (empty : table[p.slot] = 0)
    (pick : Picks table p slot q) : slot = p.slot :=
  (pickUnique pick ⟨1, if_pos empty⟩).1

/-- Backend 1 takes its only slot in the first round, backend 2 the rest. -/
def uneven (id : UInt32) : Int := if id = 1 then 1 else 65536

theorem unevenPerms : startPerms [1, 2] uneven = [permState 1 1, permState 2 65536] := by
  have shares : quotas [1, 2] uneven = [1, 65536] := by decide +kernel
  rw [startPerms, shares]
  rfl

theorem unevenFree : OrderFree [1, 2] uneven where
  even := by
    have none_ : (remainder (scaledQuotas [1, 2] uneven)).toNat = 0 := by decide +kernel
    exact ⟨0, none_⟩
  apart := by
    intro es s run _
    have owing := MaglevTermination.runOwing run
    have ids : s.perms.map PermState.id = [1, 2] := (runBalanced run).ids.trans (startIds _ _)
    cases run with
    | nil =>
      have empty : ∀ slot : Fin maglevM, emptyTable[slot] = 0 := filledGet 0
      unfold NoMeeting
      simp only [start, unevenPerms]
      refine List.pairwise_pair.mpr fun _ _ slot p q left right => ?_
      have meet := (pickFirst (empty _) left).symm.trans (pickFirst (empty _) right)
      exact absurd meet (by decide +kernel)
    | cons head tail =>
      obtain ⟨p, rest, shape, first, others⟩ := List.map_eq_cons_iff.mp ids
      obtain ⟨q, rfl, _⟩ := List.map_eq_singleton_iff.mp others
      unfold NoMeeting
      rw [shape]
      refine List.pairwise_pair.mpr fun owed _ _ _ _ _ _ => ?_
      -- a later round of backend 1 would be its second
      obtain ⟨o, origin, sameId, _, _, had⟩ := (owing p (shape ▸ List.mem_cons_self) owed).origin
      rw [unevenPerms] at origin
      rcases List.mem_cons.mp origin with rfl | second
      · have one : (1 : Int) = p.quota + (_ + 1 : Nat) := had
        omega
      · rw [List.mem_singleton.mp second, first] at sameId
        exact absurd sameId (by decide)

theorem unevenStable : ∃ table, Returns [1, 2] uneven table ∧ Returns [2, 1] uneven table := by
  have stable : Stable [1, 2] uneven := (stableExact [1, 2] _).1 unevenFree
  have fitting : Fitting [1, 2] uneven := ⟨by decide, by decide, fun _ _ => by unfold uneven; split <;> decide, by decide⟩
  obtain ⟨table, returned⟩ := MaglevTermination.dealableReturns (by decide)
    (MaglevTermination.dealableFitting fitting fun _ => MaglevTermination.twoSkips)
  exact ⟨table, returned, (stable [2, 1] (List.Perm.swap 2 1 []) table).mpr returned⟩

theorem twoOrdersDiffer : ∃ table table', Returns [1, 2] (fun _ => 1) table ∧
    Returns [2, 1] (fun _ => 1) table' ∧ table ≠ table' := by
  have sane : Sane [1, 2] fun _ => 1 := MaglevTermination.twoBackends
  have swap : ([1, 2] : List UInt32).Perm [2, 1] := List.Perm.swap 2 1 []
  have saneOther : Sane [2, 1] fun _ => 1 := sanePerm swap sane
  obtain ⟨table, returned⟩ := MaglevTermination.dealableReturns (by decide)
    (MaglevTermination.dealableFitting sane.toFitting fun _ => MaglevTermination.twoSkips)
  obtain ⟨table', returned'⟩ := MaglevTermination.dealableReturns (by decide)
    (MaglevTermination.dealableFitting saneOther.toFitting fun _ member =>
      MaglevTermination.twoSkips (swap.mem_iff.mpr member))
  refine ⟨table, table', returned, returned', fun same => ?_⟩
  obtain ⟨fuel, g, filled, rfl⟩ := returnsFill returned
  obtain ⟨fuel', g', filled', rfl⟩ := returnsFill returned'
  have first : g.table.count 1 = 32769 := MaglevProportion.heldExact sane filled 0 (by decide)
  have second : g'.table.count 1 = 32768 := MaglevProportion.heldExact saneOther filled' 1 (by decide)
  rw [same, second] at first
  contradiction

end OmegaLb.MaglevOrder
