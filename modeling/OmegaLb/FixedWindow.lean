import Mathlib.Data.List.Count
import Mathlib.Order.Lattice
import Mathlib.Logic.Function.Basic

/-! A limiter that keeps one window and one count for each key. As long as the windows do not go back,
it answers as one that remembers every visit. Nothing here names a system. -/
namespace OmegaLb.FixedWindow

variable {κ ω : Type} [DecidableEq κ] [LinearOrder ω]

/-- The window that a key was last seen in, and how many visits in it were granted. -/
abbrev Table (κ ω : Type) := κ → Option (ω × Nat)

def Table.put (t : Table κ ω) (visit : κ × ω) (count : Nat) : Table κ ω :=
  Function.update t visit.1 (some (visit.2, count))

/-- The count with this visit, unless the key has spent its limit. -/
def visit (limit : Nat) (t : Table κ ω) (v : κ × ω) : Table κ ω × Option Nat :=
  match t v.1 with
  | none => (t.put v 1, some 1)
  | some (window, count) =>
    if window ≠ v.2 then (t.put v 1, some 1)
    else if limit ≤ count then (t, none)
    else (t.put v (count + 1), some (count + 1))

def times (past : List (κ × ω)) (v : κ × ω) : Nat := past.count v

structure Tracks (limit : Nat) (past : List (κ × ω)) (t : Table κ ω) : Prop where
  fresh : ∀ key, t key = none → ∀ v ∈ past, v.1 ≠ key
  count : ∀ key window n, t key = some (window, n) → n = min limit (times past (key, window))
  seen : ∀ key window n, t key = some (window, n) → (key, window) ∈ past
  newest : ∀ key window n, t key = some (window, n) → ∀ v ∈ past, v.1 = key → v.2 ≤ window

theorem tracksEmpty (limit : Nat) : Tracks limit [] (fun _ => none : Table κ ω) where
  fresh _ _ _ inside := absurd inside List.not_mem_nil
  count _ _ _ found := absurd found nofun
  seen _ _ _ found := absurd found nofun
  newest _ _ _ found := absurd found nofun

theorem timesSelf (past : List (κ × ω)) (v : κ × ω) : times (past ++ [v]) v = times past v + 1 := by
  unfold times
  rw [List.count_append, List.count_singleton_self]

theorem timesOther {past : List (κ × ω)} {v u : κ × ω} (other : v ≠ u) : times (past ++ [v]) u = times past u := by
  unfold times
  rw [List.count_append, List.count_singleton, if_neg (by simpa using other), Nat.add_zero]

theorem timesNone {past : List (κ × ω)} {v : κ × ω} (absent : v ∉ past) : times past v = 0 :=
  List.count_eq_zero.mpr absent

theorem putTracks {limit : Nat} {past : List (κ × ω)} {t : Table κ ω} (tracks : Tracks limit past t) {v : κ × ω}
    {n : Nat} (counted : n = min limit (times past v + 1)) (later : ∀ u ∈ past, u.1 = v.1 → u.2 ≤ v.2) :
    Tracks limit (past ++ [v]) (t.put v n) := by
  have own : (t.put v n) v.1 = some (v.2, n) := Function.update_self _ _ _
  have others {key : κ} (other : key ≠ v.1) : (t.put v n) key = t key := Function.update_of_ne other _ _
  refine ⟨fun key found u inside => ?_, fun key window m found => ?_, fun key window m found => ?_,
    fun key window m found u inside same => ?_⟩
  · have other : key ≠ v.1 := by
      rintro rfl
      exact absurd (own.symm.trans found) nofun
    rw [others other] at found
    rcases List.mem_append.mp inside with before | last
    · exact tracks.fresh key found u before
    · rw [List.mem_singleton.mp last]
      exact other.symm
  · by_cases here : key = v.1
    · subst here
      cases Option.some.inj (own.symm.trans found)
      rw [counted]
      exact congrArg (min limit) (timesSelf past v).symm
    · rw [others here] at found
      rw [tracks.count key window m found, timesOther fun same => here (congrArg Prod.fst same).symm]
  · by_cases here : key = v.1
    · subst here
      cases Option.some.inj (own.symm.trans found)
      exact List.mem_append_right _ (List.mem_singleton_self v)
    · rw [others here] at found
      exact List.mem_append_left _ (tracks.seen key window m found)
  · by_cases here : key = v.1
    · subst here
      cases Option.some.inj (own.symm.trans found)
      rcases List.mem_append.mp inside with before | last
      · exact later u before same
      · rw [List.mem_singleton.mp last]
    · rw [others here] at found
      rcases List.mem_append.mp inside with before | last
      · exact tracks.newest key window m found u before same
      · exact absurd ((List.mem_singleton.mp last) ▸ same) (Ne.symm here)

theorem keptTracks {limit : Nat} {past : List (κ × ω)} {t : Table κ ω} (tracks : Tracks limit past t) {v : κ × ω}
    {n : Nat} (here : t v.1 = some (v.2, n)) (spent : limit ≤ times past v) : Tracks limit (past ++ [v]) t := by
  refine ⟨fun key found u inside => ?_, fun key window m found => ?_, fun key window m found => ?_,
    fun key window m found u inside same => ?_⟩
  · rcases List.mem_append.mp inside with before | last
    · exact tracks.fresh key found u before
    · rw [List.mem_singleton.mp last]
      rintro rfl
      exact absurd (here.symm.trans found) nofun
  · by_cases own : v = (key, window)
    · subst own
      rw [tracks.count key window m found, timesSelf, min_eq_left spent, min_eq_left (by omega)]
    · rw [tracks.count key window m found, timesOther own]
  · exact List.mem_append_left _ (tracks.seen key window m found)
  · rcases List.mem_append.mp inside with before | last
    · exact tracks.newest key window m found u before same
    · rw [List.mem_singleton.mp last] at same ⊢
      subst same
      cases Option.some.inj (here.symm.trans found)
      exact le_rfl

/-- A visit is granted if its key was granted fewer than `limit` in the window before. -/
theorem visitExact {limit : Nat} (some_ : 0 < limit) {past : List (κ × ω)} {t : Table κ ω}
    (tracks : Tracks limit past t) {v : κ × ω} (later : ∀ u ∈ past, u.1 = v.1 → u.2 ≤ v.2) :
    (visit limit t v).2 = (if times past v < limit then some (times past v + 1) else none) ∧
      Tracks limit (past ++ [v]) (visit limit t v).1 := by
  have first : times past v = 0 → (t.put v 1, some 1).2 = (if times past v < limit then some (times past v + 1) else none) ∧
      Tracks limit (past ++ [v]) (t.put v 1, some 1).1 := by
    intro none_
    refine ⟨?_, putTracks tracks (by omega) later⟩
    rw [none_, if_pos some_]
  unfold visit
  split
  · rename_i unseen
    exact first (timesNone fun inside => tracks.fresh v.1 unseen v inside rfl)
  · rename_i window count found
    split
    · rename_i other
      refine first (timesNone fun inside => other ?_)
      exact le_antisymm (later (v.1, window) (tracks.seen _ _ _ found) rfl) (tracks.newest _ _ _ found v inside rfl)
    · rename_i same
      rw [not_not] at same
      subst same
      have counted : count = min limit (times past v) := tracks.count _ _ _ found
      split
      · rename_i spent
        have full : limit ≤ times past v := by
          omega
        exact ⟨(if_neg (Nat.not_lt.mpr full)).symm, keptTracks tracks found full⟩
      · rename_i left
        have room : times past v < limit := by omega
        have same : count = times past v := by omega
        rw [same, if_pos room]
        exact ⟨rfl, putTracks tracks (by omega) later⟩

end OmegaLb.FixedWindow
