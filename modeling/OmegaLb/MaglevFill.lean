import OmegaLb.MaglevShares
import OmegaLb.StepRun

/-! The fill loop without fuel: what a search picks, what a round does, and a build
as a run of rounds. Over it the accounts of a run: every write goes to an empty
slot, and what a backend holds plus what it is owed never changes. -/
namespace OmegaLb.MaglevFill
open Maglev MaglevShares
open StepRun (Run)

/-! ### Search -/

def Picks (table : MaglevTable) (p : PermState) (slot : Fin maglevM) (q : PermState) : Prop :=
  ∃ fuel, search table fuel p = some (slot, q)

theorem searchMono {table : MaglevTable} {fuel more : Nat} {p : PermState} {r} (le : fuel ≤ more)
    (found : search table fuel p = some r) : search table more p = some r := by
  induction fuel generalizing p more with
  | zero => simp [search] at found
  | succ fuel ih =>
    obtain ⟨more, rfl⟩ : ∃ m, more = m + 1 := ⟨more - 1, by omega⟩
    simp only [search] at *
    split at found
    · rename_i empty
      rw [if_pos empty]
      exact found
    · rename_i taken
      rw [if_neg taken]
      exact ih (by omega) found

theorem pickUnique {table : MaglevTable} {p : PermState} {slot slot' q q'}
    (left : Picks table p slot q) (right : Picks table p slot' q') : slot = slot' ∧ q = q' := by
  obtain ⟨fuel, left⟩ := left
  obtain ⟨fuel', right⟩ := right
  have both := (searchMono (Nat.le_max_left fuel fuel') left).symm.trans
    (searchMono (Nat.le_max_right fuel fuel') right)
  cases Option.some.inj both
  exact ⟨rfl, rfl⟩

theorem searchSpec {table : MaglevTable} {fuel : Nat} {p q : PermState} {slot : Fin maglevM}
    (found : search table fuel p = some (slot, q)) :
    table[slot] = 0 ∧ ∃ next, q = { p with next := next } := by
  induction fuel generalizing p with
  | zero => simp [search] at found
  | succ fuel ih =>
    simp only [search] at found
    split at found
    · rename_i empty
      cases Option.some.inj found
      exact ⟨empty, _, rfl⟩
    · obtain ⟨empty, next, same⟩ := ih found
      exact ⟨empty, next, same⟩

theorem pickEmpty {table : MaglevTable} {p slot q} (pick : Picks table p slot q) :
    table[slot] = 0 := by
  obtain ⟨fuel, found⟩ := pick
  exact (searchSpec found).1

theorem pickState {table : MaglevTable} {p slot q} (pick : Picks table p slot q) :
    ∃ next, q = { p with next := next } := by
  obtain ⟨fuel, found⟩ := pick
  exact (searchSpec found).2

/-! ### Rounds -/

inductive Round : Fill → List PermState → Fill → List PermState → Prop where
  | nil (f) : Round f [] f []
  | idle {f p ps f' ps'} (spent : p.quota ≤ 0) (rest : Round f ps f' ps') :
      Round f (p :: ps) f' (p :: ps')
  | place {f p ps slot q f' ps'} (owed : 0 < p.quota) (pick : Picks f.table p slot q)
      (rest : Round (f.write slot q.id) ps f' ps') :
      Round f (p :: ps) f' ({ q with quota := q.quota - 1 } :: ps')

theorem roundSource {fuel : Nat} {f f' ps ps'} (ok : fillRound fuel f ps = some (f', ps')) :
    Round f ps f' ps' := by
  induction ps generalizing f f' ps' with
  | nil =>
    cases Option.some.inj ok
    exact .nil f
  | cons p ps ih =>
    simp only [fillRound, bind, Option.bind_eq_some_iff] at ok
    obtain ⟨⟨f1, p1⟩, first, ⟨f2, ps2⟩, rest, last⟩ := ok
    cases Option.some.inj last
    unfold turn at first
    split at first
    · rename_i spent
      cases Option.some.inj first
      exact .idle spent (ih rest)
    · rename_i owed
      simp only [bind, Option.bind_eq_some_iff] at first
      obtain ⟨⟨slot, q⟩, found, made⟩ := first
      cases Option.some.inj made
      exact .place (by omega) ⟨fuel, found⟩ (ih rest)

theorem roundComplete {f f' ps ps'} (source : Round f ps f' ps') :
    ∃ fuel, ∀ more, fuel ≤ more → fillRound more f ps = some (f', ps') := by
  induction source with
  | nil f => exact ⟨0, fun _ _ => rfl⟩
  | idle spent rest ih =>
    obtain ⟨fuel, ih⟩ := ih
    refine ⟨fuel, fun more le => ?_⟩
    simp [fillRound, turn, spent, ih more le]
  | @place f p ps slot q f' ps' owed pick rest ih =>
    obtain ⟨first, found⟩ := pick
    obtain ⟨fuel, ih⟩ := ih
    refine ⟨max first fuel, fun more le => ?_⟩
    have searched := searchMono (le_trans (Nat.le_max_left first fuel) le) found
    have tail := ih more (le_trans (Nat.le_max_right first fuel) le)
    have busy : ¬ p.quota ≤ 0 := by omega
    simp [fillRound, turn, busy, searched, tail]

/-! ### A build as a run of rounds -/

structure Loop where
  fill : Fill
  perms : List PermState

def start (backends : List UInt32) (vnodeCounts : UInt32 → Int) : Loop :=
  ⟨emptyFill, startPerms backends vnodeCounts⟩

def RoundStep (s : Loop) (_ : Unit) (t : Loop) : Prop :=
  s.fill.filled < maglevM ∧ Round s.fill s.perms t.fill t.perms

theorem fillLoopSource {searchFuel fuel : Nat} {f ps g}
    (ok : fillLoop searchFuel fuel f ps = some g) :
    ∃ es t, Run RoundStep ⟨f, ps⟩ es t ∧ maglevM ≤ t.fill.filled ∧ t.fill = g := by
  induction fuel generalizing f ps with
  | zero => simp [fillLoop] at ok
  | succ fuel ih =>
    simp only [fillLoop] at ok
    split at ok
    · rename_i below
      simp only [bind, Option.bind_eq_some_iff] at ok
      obtain ⟨⟨f1, ps1⟩, first, rest⟩ := ok
      obtain ⟨es, t, run, full, same⟩ := ih rest
      have step : RoundStep ⟨f, ps⟩ () ⟨f1, ps1⟩ := ⟨below, roundSource first⟩
      exact ⟨() :: es, t, .cons step run, full, same⟩
    · cases Option.some.inj ok
      exact ⟨[], _, .nil _, by dsimp only; omega, rfl⟩

theorem fillLoopComplete {s t : Loop} {es} (run : Run RoundStep s es t)
    (full : maglevM ≤ t.fill.filled) :
    ∃ fuel, ∀ more, fuel ≤ more → fillLoop more more s.fill s.perms = some t.fill := by
  suffices steps : ∃ fuel, ∀ more rest, fuel ≤ more → es.length < rest →
      fillLoop more rest s.fill s.perms = some t.fill by
    obtain ⟨fuel, steps⟩ := steps
    exact ⟨max fuel (es.length + 1), fun more le => steps more more (by omega) (by omega)⟩
  induction run with
  | nil s =>
    refine ⟨0, fun more rest _ long => ?_⟩
    obtain ⟨rest, rfl⟩ : ∃ r, rest = r + 1 := ⟨rest - 1, by simp at long; omega⟩
    simp [fillLoop, Nat.not_lt.mpr full]
  | cons head tail ih =>
    obtain ⟨first, passed⟩ := roundComplete head.2
    obtain ⟨fuel, ih⟩ := ih full
    refine ⟨max first fuel, fun more rest le long => ?_⟩
    obtain ⟨rest, rfl⟩ : ∃ r, rest = r + 1 := ⟨rest - 1, by omega⟩
    have step := passed more (le_trans (Nat.le_max_left first fuel) le)
    have after := ih more rest (le_trans (Nat.le_max_right first fuel) le)
      (by simpa using long)
    simp [fillLoop, head.1, step, after]

theorem fillExact {backends : List UInt32} {vnodeCounts : UInt32 → Int} (nonempty : backends ≠ [])
    (g : Fill) : (∃ fuel, maglevFill fuel backends vnodeCounts = some g) ↔
      ∃ es t, Run RoundStep (start backends vnodeCounts) es t ∧ maglevM ≤ t.fill.filled ∧
        t.fill = g := by
  have some_ : backends.length ≠ 0 := fun zero => nonempty (List.length_eq_zero_iff.mp zero)
  constructor
  · rintro ⟨fuel, ok⟩
    rw [maglevFill, if_neg some_] at ok
    exact fillLoopSource ok
  · rintro ⟨es, t, run, full, same⟩
    obtain ⟨fuel, ok⟩ := fillLoopComplete run full
    exact ⟨fuel, by rw [maglevFill, if_neg some_, ← same]; exact ok fuel (Nat.le_refl _)⟩

theorem returnsExact {backends : List UInt32} {vnodeCounts : UInt32 → Int} (nonempty : backends ≠ [])
    (table : MaglevTable) : Returns backends vnodeCounts table ↔
      ∃ es t, Run RoundStep (start backends vnodeCounts) es t ∧ maglevM ≤ t.fill.filled ∧
        t.fill.table = table := by
  constructor
  · rintro ⟨fuel, ok⟩
    obtain ⟨g, filled, same⟩ := Option.map_eq_some_iff.mp ok
    obtain ⟨es, t, run, full, last⟩ := (fillExact nonempty g).mp ⟨fuel, filled⟩
    exact ⟨es, t, run, full, by rw [last, same]⟩
  · rintro ⟨es, t, run, full, same⟩
    obtain ⟨fuel, filled⟩ := (fillExact nonempty t.fill).mpr ⟨es, t, run, full, rfl⟩
    exact ⟨fuel, Option.map_eq_some_iff.mpr ⟨_, filled, same⟩⟩

/-! ### What the writes say -/

def live (f : Fill) : List (Fin maglevM × UInt32) := f.writes.filter fun w => decide (w.2 ≠ 0)

structure Accounted (f : Fill) : Prop where
  counted : f.filled = f.writes.length
  liveOnce : ((live f).map Prod.fst).Nodup
  liveShown : ∀ w ∈ live f, f.table[w.1] = w.2
  liveEmpty : ∀ slot, slot ∉ (live f).map Prod.fst → f.table[slot] = 0

structure Consistent (f : Fill) : Prop extends Accounted f where
  owned : ∀ w ∈ f.writes, w.2 ≠ 0

theorem emptyAccounted : Accounted emptyFill where
  counted := rfl
  liveOnce := List.nodup_nil
  liveShown := by simp [emptyFill, live]
  liveEmpty := fun slot _ => filledGet 0 slot

theorem liveWrites {f : Fill} (consistent : Consistent f) : live f = f.writes :=
  List.filter_eq_self.mpr fun w member => decide_eq_true (consistent.owned w member)

theorem writesOnce {f : Fill} (consistent : Consistent f) : (f.writes.map Prod.fst).Nodup :=
  liveWrites consistent ▸ consistent.liveOnce

theorem writesShown {f : Fill} (consistent : Consistent f) : ∀ w ∈ f.writes, f.table[w.1] = w.2 :=
  liveWrites consistent ▸ consistent.liveShown

theorem writeGet (f : Fill) (slot : Fin maglevM) (id : UInt32) (j : Fin maglevM) :
    (f.write slot id).table[j] = if slot = j then id else f.table[j] := setGet f.table slot j id

theorem liveZero (f : Fill) (slot : Fin maglevM) : live (f.write slot 0) = live f := by
  simp [live, Fill.write]

theorem liveWrite (f : Fill) (slot : Fin maglevM) {id : UInt32} (nonzero : id ≠ 0) :
    live (f.write slot id) = (slot, id) :: live f := by
  simp [live, Fill.write, nonzero]

theorem freshSlot {f : Fill} (accounted : Accounted f) {slot : Fin maglevM}
    (empty : f.table[slot] = 0) : slot ∉ (live f).map Prod.fst := by
  intro written
  obtain ⟨⟨_, id⟩, member, rfl⟩ := List.mem_map.mp written
  have nonzero := of_decide_eq_true (List.mem_filter.mp member).2
  exact nonzero ((accounted.liveShown _ member).symm.trans empty)

theorem zeroAccounted {f : Fill} (accounted : Accounted f) {slot : Fin maglevM}
    (empty : f.table[slot] = 0) : Accounted (f.write slot 0) := by
  -- the mark of an empty slot, written over itself
  have table : ∀ j : Fin maglevM, (f.write slot 0).table[j] = f.table[j] := by
    intro j
    rw [writeGet]
    split
    · rename_i same
      rw [← same, empty]
    · rfl
  refine ⟨?_, ?_, ?_, ?_⟩
  · simp [Fill.write, accounted.counted]
  · rw [liveZero]
    exact accounted.liveOnce
  · intro w member
    rw [liveZero] at member
    rw [table, accounted.liveShown w member]
  · intro j absent
    rw [liveZero] at absent
    rw [table, accounted.liveEmpty j absent]

theorem ownedAccounted {f : Fill} (accounted : Accounted f) {slot : Fin maglevM} {id : UInt32}
    (empty : f.table[slot] = 0) (nonzero : id ≠ 0) : Accounted (f.write slot id) := by
  have fresh := freshSlot accounted empty
  have written := liveWrite f slot nonzero
  refine ⟨?_, ?_, ?_, ?_⟩
  · simp [Fill.write, accounted.counted]
  · rw [written]
    exact List.nodup_cons.mpr ⟨fresh, accounted.liveOnce⟩
  · intro w member
    rw [written] at member
    rcases List.mem_cons.mp member with rfl | old
    · rw [writeGet, if_pos rfl]
    · have other : slot ≠ w.1 := fun same => fresh (List.mem_map.mpr ⟨w, old, same.symm⟩)
      rw [writeGet, if_neg other, accounted.liveShown w old]
  · intro j absent
    rw [written] at absent
    have parts := (List.mem_cons.not.trans not_or).mp absent
    have other : slot ≠ j := fun same => parts.1 same.symm
    rw [writeGet, if_neg other, accounted.liveEmpty j parts.2]

theorem writeAccounted {f : Fill} (accounted : Accounted f) {slot : Fin maglevM}
    (empty : f.table[slot] = 0) (id : UInt32) : Accounted (f.write slot id) := by
  by_cases zero : id = 0
  · exact zero ▸ zeroAccounted accounted empty
  · exact ownedAccounted accounted empty zero

theorem filledLe {f : Fill} (consistent : Consistent f) : f.filled ≤ maglevM := by
  have card := (writesOnce consistent).length_le_card
  rw [consistent.counted]
  simpa using card

theorem allSlots {n : Nat} {slots : List (Fin n)} (once : slots.Nodup) (full : n ≤ slots.length)
    (slot : Fin n) : slot ∈ slots := by
  have card : slots.toFinset.card = Fintype.card (Fin n) := by
    have le := once.length_le_card
    rw [List.toFinset_card_of_nodup once, Fintype.card_fin] at *
    omega
  rw [← List.mem_toFinset, (Finset.card_eq_iff_eq_univ _).mp card]
  exact Finset.mem_univ slot

theorem missingSlot {n : Nat} {slots : List (Fin n)} (once : slots.Nodup) (short : slots.length < n) :
    ∃ slot, slot ∉ slots := by
  have card : slots.toFinset.card < (Finset.univ : Finset (Fin n)).card := by
    rw [List.toFinset_card_of_nodup once, Finset.card_fin]
    exact short
  obtain ⟨slot, _, absent⟩ := Finset.exists_mem_notMem_of_card_lt_card card
  exact ⟨slot, fun member => absent (List.mem_toFinset.mpr member)⟩

theorem vectorSlots {α : Type} {n : Nat} (v : Vector α n) :
    v.toList = (List.finRange n).map v.get := by
  refine List.ext_getElem (by simp) fun i inside also => ?_
  rw [List.getElem_map, List.getElem_finRange]
  rfl

theorem liveLe (f : Fill) : (live f).length ≤ f.writes.length := List.length_filter_le _ _

theorem emptyExact {f : Fill} (accounted : Accounted f) :
    (∃ slot : Fin maglevM, f.table[slot] = 0) ↔ (live f).length < maglevM := by
  constructor
  · rintro ⟨slot, empty⟩
    by_contra full
    have member := allSlots accounted.liveOnce (by rw [List.length_map]; omega) slot
    exact freshSlot accounted empty member
  · intro short
    obtain ⟨slot, absent⟩ := missingSlot accounted.liveOnce (by rw [List.length_map]; exact short)
    exact ⟨slot, accounted.liveEmpty slot absent⟩

theorem emptySlot {f : Fill} (accounted : Accounted f) (below : f.filled < maglevM) :
    ∃ slot : Fin maglevM, f.table[slot] = 0 := by
  have le := liveLe f
  have counted := accounted.counted
  exact (emptyExact accounted).mpr (by omega)

theorem slotLive {f : Fill} (accounted : Accounted f) {slot : Fin maglevM}
    (taken : f.table[slot] ≠ 0) : (slot, f.table[slot]) ∈ f.writes := by
  by_contra absent
  refine taken (accounted.liveEmpty slot fun written => absent ?_)
  obtain ⟨⟨_, id⟩, inside, rfl⟩ := List.mem_map.mp written
  rw [accounted.liveShown _ inside]
  exact (List.mem_filter.mp inside).1

theorem slotWritten {f : Fill} (consistent : Consistent f) (full : maglevM ≤ f.filled)
    (slot : Fin maglevM) : (slot, f.table[slot]) ∈ f.writes := by
  have member := allSlots (writesOnce consistent)
    (by rw [List.length_map, ← consistent.counted]; exact full) slot
  obtain ⟨⟨_, id⟩, inside, rfl⟩ := List.mem_map.mp member
  rw [writesShown consistent _ inside]
  exact inside

theorem tableWrites {f : Fill} (consistent : Consistent f) (full : maglevM ≤ f.filled) :
    f.table.toList.Perm (f.writes.map Prod.snd) := by
  have slots : (List.finRange maglevM).Perm (f.writes.map Prod.fst) := by
    rw [List.perm_ext_iff_of_nodup (List.nodup_finRange _) (writesOnce consistent)]
    intro slot
    have member := allSlots (writesOnce consistent)
      (by rw [List.length_map, ← consistent.counted]; exact full) slot
    simp [member]
  have shown : (f.writes.map Prod.fst).map (fun slot => f.table[slot]) = f.writes.map Prod.snd := by
    rw [List.map_map]
    exact List.map_congr_left (writesShown consistent)
  rw [vectorSlots, ← shown]
  exact slots.map _

theorem heldWrites {f : Fill} (consistent : Consistent f) (full : maglevM ≤ f.filled) (id : UInt32) :
    f.table.count id = (f.writes.map Prod.snd).count id := by
  rw [← (tableWrites consistent full).count_eq id, Vector.count_toList]

/-! ### What a round keeps -/

theorem roundIds {f ps f' ps'} (round : Round f ps f' ps') :
    ps'.map PermState.id = ps.map PermState.id := by
  induction round with
  | nil f => rfl
  | idle spent rest ih => simp [ih]
  | place owed pick rest ih =>
    obtain ⟨next, rfl⟩ := pickState pick
    simp [ih]

theorem roundAccounted {f ps f' ps'} (round : Round f ps f' ps') (accounted : Accounted f) :
    Accounted f' := by
  induction round with
  | nil f => exact accounted
  | idle spent rest ih => exact ih accounted
  | place owed pick rest ih => exact ih (writeAccounted accounted (pickEmpty pick) _)

theorem roundFrozen {f ps f' ps'} (round : Round f ps f' ps') :
    ∀ q ∈ ps', ∃ p ∈ ps, (∃ next quota, q = { p with next := next, quota := quota }) ∧
      q.quota ≤ p.quota := by
  induction round with
  | nil f => simp
  | @idle f p ps f' ps' spent rest ih =>
    intro q member
    rcases List.mem_cons.mp member with rfl | tail
    · exact ⟨q, List.mem_cons_self, ⟨q.next, q.quota, rfl⟩, Int.le_refl _⟩
    · obtain ⟨origin, inside, shape⟩ := ih q tail
      exact ⟨origin, List.mem_cons_of_mem _ inside, shape⟩
  | @place f p ps slot q f' ps' owed pick rest ih =>
    intro r member
    obtain ⟨next, rfl⟩ := pickState pick
    rcases List.mem_cons.mp member with rfl | tail
    · exact ⟨p, List.mem_cons_self, ⟨next, p.quota - 1, rfl⟩, by dsimp only; omega⟩
    · obtain ⟨origin, inside, shape⟩ := ih r tail
      exact ⟨origin, List.mem_cons_of_mem _ inside, shape⟩

theorem roundWriters {f g : Fill} {ps ps' : List PermState} (round : Round f ps g ps') :
    ∀ w ∈ g.writes, w ∈ f.writes ∨ ∃ p ∈ ps, 0 < p.quota ∧ p.id = w.2 := by
  induction round with
  | nil f => exact fun w member => .inl member
  | idle spent rest ih =>
    intro w member
    rcases ih w member with old | ⟨p, inside, owner⟩
    · exact .inl old
    · exact .inr ⟨p, List.mem_cons_of_mem _ inside, owner⟩
  | @place f r ps slot q g ps' owed pick rest ih =>
    intro w member
    obtain ⟨next, rfl⟩ := pickState pick
    rcases ih w member with written | ⟨p, inside, owner⟩
    · rcases List.mem_cons.mp written with rfl | old
      · exact .inr ⟨r, List.mem_cons_self, owed, rfl⟩
      · exact .inl old
    · exact .inr ⟨p, List.mem_cons_of_mem _ inside, owner⟩

def owed (ps : List PermState) (id : UInt32) : Int :=
  (ps.map fun p => if p.id = id then p.quota else 0).sum

def held (f : Fill) (id : UInt32) : Int := (f.writes.map Prod.snd).count id

theorem heldWrite (f : Fill) (slot : Fin maglevM) (owner id : UInt32) :
    held (f.write slot owner) id = held f id + if owner = id then 1 else 0 := by
  simp only [held, Fill.write, List.map_cons, List.count_cons, beq_iff_eq]
  split <;> simp

theorem roundOwed {f ps f' ps'} (round : Round f ps f' ps') (id : UInt32) :
    held f' id + owed ps' id = held f id + owed ps id := by
  induction round with
  | nil f => rfl
  | idle spent rest ih =>
    simp only [owed, List.map_cons, List.sum_cons] at *
    omega
  | place due pick rest ih =>
    obtain ⟨next, rfl⟩ := pickState pick
    rw [heldWrite] at ih
    simp only [owed, List.map_cons, List.sum_cons] at *
    split at ih
    · rename_i own
      rw [if_pos own, if_pos own]
      omega
    · rename_i other
      rw [if_neg other, if_neg other]
      omega

theorem roundTotal {f ps f' ps'} (round : Round f ps f' ps') :
    (f'.filled : Int) + (ps'.map PermState.quota).sum = f.filled + (ps.map PermState.quota).sum := by
  induction round with
  | nil f => rfl
  | idle spent rest ih =>
    simp only [List.map_cons, List.sum_cons]
    omega
  | place owed pick rest ih =>
    obtain ⟨next, rfl⟩ := pickState pick
    simp only [Fill.write, List.map_cons, List.sum_cons] at *
    omega

theorem roundNonneg {f ps f' ps'} (round : Round f ps f' ps') (quotas : ∀ p ∈ ps, 0 ≤ p.quota) :
    ∀ p ∈ ps', 0 ≤ p.quota := by
  induction round with
  | nil f => exact quotas
  | idle spent rest ih =>
    intro p member
    rcases List.mem_cons.mp member with rfl | tail
    · exact quotas p List.mem_cons_self
    · exact ih (fun q inside => quotas q (List.mem_cons_of_mem _ inside)) p tail
  | place owed pick rest ih =>
    intro p member
    obtain ⟨next, rfl⟩ := pickState pick
    rcases List.mem_cons.mp member with rfl | tail
    · dsimp only
      omega
    · exact ih (fun q inside => quotas q (List.mem_cons_of_mem _ inside)) p tail

/-! ### What a run keeps -/

structure Balanced (first s : Loop) : Prop where
  ids : s.perms.map PermState.id = first.perms.map PermState.id
  accounted : Accounted s.fill
  accounts : ∀ id, held s.fill id + owed s.perms id = owed first.perms id
  total : (s.fill.filled : Int) + (s.perms.map PermState.quota).sum =
    (first.perms.map PermState.quota).sum
  quotas : (∀ p ∈ first.perms, 0 ≤ p.quota) → ∀ p ∈ s.perms, 0 ≤ p.quota
  origins : ∀ q ∈ s.perms, ∃ p ∈ first.perms, p.id = q.id ∧ q.quota ≤ p.quota
  writers : ∀ w ∈ s.fill.writes, ∃ p ∈ first.perms, 0 < p.quota ∧ p.id = w.2

theorem startBalanced (ps : List PermState) : Balanced ⟨emptyFill, ps⟩ ⟨emptyFill, ps⟩ where
  ids := rfl
  accounted := emptyAccounted
  accounts := fun id => by simp [held, emptyFill]
  total := by simp [emptyFill]
  quotas := id
  origins := fun q member => ⟨q, member, rfl, Int.le_refl _⟩
  writers := by simp [emptyFill]

theorem idsNonzero {first s : Loop} (ids : s.perms.map PermState.id = first.perms.map PermState.id)
    (nonzero : ∀ p ∈ first.perms, p.id ≠ 0) : ∀ p ∈ s.perms, p.id ≠ 0 := by
  intro p member
  have inside : p.id ∈ first.perms.map PermState.id := ids ▸ List.mem_map.mpr ⟨p, member, rfl⟩
  obtain ⟨q, origin, same⟩ := List.mem_map.mp inside
  rw [← same]
  exact nonzero q origin

theorem stepBalanced {first s t : Loop} (balanced : Balanced first s) (step : RoundStep s () t) :
    Balanced first t := by
  have round := step.2
  refine ⟨?_, ?_, ?_, ?_, ?_, ?_, ?_⟩
  · exact (roundIds round).trans balanced.ids
  · exact roundAccounted round balanced.accounted
  · exact fun id => (roundOwed round id).trans (balanced.accounts id)
  · exact (roundTotal round).trans balanced.total
  · exact fun quotas => roundNonneg round (balanced.quotas quotas)
  · intro q member
    obtain ⟨p, inside, ⟨next, quota, rfl⟩, le⟩ := roundFrozen round q member
    obtain ⟨o, origin, sameId, le'⟩ := balanced.origins p inside
    exact ⟨o, origin, sameId, le.trans le'⟩
  · intro w member
    rcases roundWriters round w member with old | ⟨p, inside, owed, sameId⟩
    · exact balanced.writers w old
    · obtain ⟨o, origin, sameId', le⟩ := balanced.origins p inside
      exact ⟨o, origin, by omega, sameId'.trans sameId⟩

theorem runBalanced {ps : List PermState} {es t} (run : Run RoundStep ⟨emptyFill, ps⟩ es t) :
    Balanced ⟨emptyFill, ps⟩ t := by
  have preserved : ∀ s e t, Balanced ⟨emptyFill, ps⟩ s → RoundStep s e t →
      Balanced ⟨emptyFill, ps⟩ t := fun _ _ _ balanced step => stepBalanced balanced step
  exact StepRun.runInvariant preserved run (startBalanced ps)

theorem runConsistent {ps : List PermState} (nonzero : ∀ p ∈ ps, p.id ≠ 0) {es t}
    (run : Run RoundStep ⟨emptyFill, ps⟩ es t) : Consistent t.fill := by
  have balanced := runBalanced run
  refine ⟨balanced.accounted, fun w member => ?_⟩
  obtain ⟨p, inside, _, owner⟩ := balanced.writers w member
  exact owner ▸ nonzero p inside

end OmegaLb.MaglevFill
